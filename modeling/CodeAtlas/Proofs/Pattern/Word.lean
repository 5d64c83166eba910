/-
Words, and the name behind them.

A header begins with words, each with blanks behind it, and most of them may be left out. So
its text is given by the pieces that stand for the words, where an empty piece stands for a
word that is missing. A match can be read in these pieces, and a text in pieces can be
followed, provided that no word is the begin of another one that may stand in its place.

The name comes behind the words. It is all that can be read as one if the rest of the header
does not need any of it (`exists_name_of_run`).
-/
import CodeAtlas.Proofs.Pattern.Follow

set_option autoImplicit false

namespace CodeAtlas

namespace Pattern

variable {s : Slot} {w : String} {ws : List String} {m m' : Spot} {ms : List (Slot × Spot)}
  {x t rest : List Char}

/-- The word and at least one blank behind it. -/
def IsWord (w : String) (x : List Char) : Prop :=
  ∃ g, g ≠ [] ∧ (∀ c ∈ g, Text.isBlankChar c = true) ∧ x = w.toList ++ g

/-- The word with its blanks, or nothing. -/
def MayBeWord (w : String) (x : List Char) : Prop := x = [] ∨ IsWord w x

theorem IsWord.ne_nil (h : IsWord w x) : x ≠ [] := by
  obtain ⟨g, hne, -, rfl⟩ := h
  exact List.append_ne_nil_of_right_ne_nil _ hne

theorem isBlankChar_space : ∀ c ∈ [' '], Text.isBlankChar c = true := List.all_eq_true.mp rfl

/-- A word with one space. -/
theorem isWord_space (w : String) : IsWord w (w.toList ++ [' ']) :=
  ⟨[' '], List.cons_ne_nil _ _, isBlankChar_space, rfl⟩

theorem MayBeWord.isWord (h : MayBeWord w x) (hx : x.isEmpty = false) : IsWord w x := by
  refine h.resolve_left ?_
  rintro rfl
  cases hx

theorem IsWord.not_mem (h : IsWord w x) {c : Char}
    (hw : c ∉ w.toList) (hc : Text.isBlankChar c = false) : c ∉ x := by
  obtain ⟨g, -, hg, rfl⟩ := h
  intro hmem
  rcases List.mem_append.mp hmem with hmem | hmem
  · exact hw hmem
  · rw [hg c hmem] at hc
    cases hc

theorem MayBeWord.not_mem (h : MayBeWord w x) {c : Char}
    (hw : c ∉ w.toList) (hc : Text.isBlankChar c = false) : c ∉ x := by
  rcases h with rfl | h
  · exact List.not_mem_nil
  · exact h.not_mem hw hc

/-! ## Words of a match -/

theorem Matches.of_blanks (h : Matches blanks m m' ms) :
    ∃ g, (∀ c ∈ g, Text.isBlankChar c = true) ∧ m.rest = g ++ m'.rest ∧ ms = [] := by
  cases h with
  | many hg hrest => exact ⟨_, hg, hrest, rfl⟩

theorem Matches.of_gap (h : Matches gap m m' ms) :
    ∃ g, g ≠ [] ∧ (∀ c ∈ g, Text.isBlankChar c = true) ∧ m.rest = g ++ m'.rest ∧ ms = [] := by
  obtain ⟨m₁, ms₁, ms₂, hone, hmany, rfl⟩ := matches_append_iff.mp h
  obtain ⟨g, hg, hbehind, rfl⟩ := Matches.of_blanks hmany
  cases hone with
  | @one _ c _ _ hc hrest =>
    refine ⟨c :: g, List.cons_ne_nil c g, List.forall_mem_cons.mpr ⟨hc, hg⟩, ?_, rfl⟩
    rw [hrest, List.cons_append, ← hbehind]
    rfl

theorem Matches.of_word (h : Matches (word w) m m' ms) :
    ∃ x, IsWord w x ∧ m.rest = x ++ m'.rest ∧ ms = [] := by
  obtain ⟨m₁, ms₁, ms₂, hlit, hgap, rfl⟩ := matches_append_iff.mp h
  obtain ⟨g, hne, hg, hbehind, rfl⟩ := hgap.of_gap
  have hword := hlit.rest_of_lit
  cases hlit
  refine ⟨w.toList ++ g, ⟨g, hne, hg, rfl⟩, ?_, rfl⟩
  rw [List.append_assoc, ← hbehind]
  exact hword

theorem Matches.of_opt {a : Pattern} (h : Matches (opt a) m m' ms) :
    Matches a m m' ms ∨ m.rest = m'.rest ∧ ms = [] := by
  cases h with
  | left h => exact .inl h
  | right h =>
    have hrest := Matches.rest_of_lit h
    cases h
    exact .inr ⟨hrest, rfl⟩

theorem Matches.of_opt_word (h : Matches (opt (word w)) m m' ms) :
    ∃ x, MayBeWord w x ∧ m.rest = x ++ m'.rest ∧ ms = [] := by
  rcases h.of_opt with h | ⟨hrest, rfl⟩
  · obtain ⟨x, hx, hrest, rfl⟩ := h.of_word
    exact ⟨x, .inr hx, hrest, rfl⟩
  · exact ⟨[], .inl rfl, hrest, rfl⟩

/-- A flag marks its slot if its word is there. -/
theorem Matches.of_flag (h : Matches (flag s w) m m' ms) :
    ∃ x, MayBeWord w x ∧ m.rest = x ++ m'.rest ∧
      ∀ s', ms.any (·.1 = s') = (decide (s = s') && !x.isEmpty) := by
  rcases h.of_opt with h | ⟨hrest, rfl⟩
  · obtain ⟨ms, hword, rfl⟩ := h.exists_of_keep
    obtain ⟨x, hx, hrest, rfl⟩ := hword.of_word
    refine ⟨x, .inr hx, hrest, fun s' => ?_⟩
    simp [hx.ne_nil]
  · exact ⟨[], .inl rfl, hrest, fun s' => by simp⟩

theorem Matches.of_oneOf (h : Matches (oneOf ws) m m' ms) :
    ∃ w ∈ ws, m.rest = w.toList ++ m'.rest ∧ ms = [] := by
  cases h with
  | among ht hrest =>
    obtain ⟨w, hw, rfl⟩ := List.mem_map.mp ht
    exact ⟨w, hw, hrest, rfl⟩

/-! Behind something else, from the last word to the first. -/

section

variable {a : Pattern}

theorem Matches.snoc_word (h : Matches (a ++ word w) m m' ms) :
    ∃ m₁ x, Matches a m m₁ ms ∧ IsWord w x ∧ m₁.rest = x ++ m'.rest := by
  obtain ⟨m₁, ms₁, ms₂, ha, hword, rfl⟩ := matches_append_iff.mp h
  obtain ⟨x, hx, hrest, rfl⟩ := hword.of_word
  rw [List.append_nil]
  exact ⟨m₁, x, ha, hx, hrest⟩

theorem Matches.snoc_opt_word (h : Matches (a ++ opt (word w)) m m' ms) :
    ∃ m₁ x, Matches a m m₁ ms ∧ MayBeWord w x ∧ m₁.rest = x ++ m'.rest := by
  obtain ⟨m₁, ms₁, ms₂, ha, hword, rfl⟩ := matches_append_iff.mp h
  obtain ⟨x, hx, hrest, rfl⟩ := hword.of_opt_word
  rw [List.append_nil]
  exact ⟨m₁, x, ha, hx, hrest⟩

theorem Matches.snoc_flag (h : Matches (a ++ flag s w) m m' ms) :
    ∃ m₁ ms₁ x, Matches a m m₁ ms₁ ∧ MayBeWord w x ∧ m₁.rest = x ++ m'.rest ∧
      ∀ s', ms.any (·.1 = s') = (ms₁.any (·.1 = s') || decide (s = s') && !x.isEmpty) := by
  obtain ⟨m₁, ms₁, ms₂, ha, hflag, rfl⟩ := matches_append_iff.mp h
  obtain ⟨x, hx, hrest, hmarks⟩ := hflag.of_flag
  refine ⟨m₁, ms₁, x, ha, hx, hrest, ?_⟩
  intro s'
  rw [List.any_append, hmarks]

end

/-! ## Following words -/

/-- The text begins with one of the words. -/
def Begins (ws : List String) (t : List Char) : Prop := ∃ w ∈ ws, w.toList <+: t

/-- Neither word begins with the other. -/
def Apart (v w : String) : Prop := ¬ v.toList <+: w.toList ∧ ¬ w.toList <+: v.toList

instance (v w : String) : Decidable (Apart v w) := inferInstanceAs (Decidable (_ ∧ _))

/-- The word begins with a character that is no blank. -/
def BeginsBlack (w : String) : Prop := w.toList.head?.any (!Text.isBlankChar ·) = true

instance (w : String) : Decidable (BeginsBlack w) := inferInstanceAs (Decidable (_ = _))

theorem after?_of_apart {v : String} (h : w.toList <+: t) (hapart : Apart v w) :
    Text.after? v.toList t = none := by
  refine Option.eq_none_iff_forall_ne_some.mpr ?_
  intro rest hrest
  have hv : v.toList <+: t := ⟨rest, (Text.after?_eq_some_iff.mp hrest).symm⟩
  rcases List.prefix_or_prefix_of_prefix hv h with hle | hle
  · exact hapart.1 hle
  · exact hapart.2 hle

theorem Begins.after? {v : String} (h : Begins ws t) (hapart : ∀ w ∈ ws, Apart v w) :
    Text.after? v.toList t = none := by
  obtain ⟨w, hw, hbegin⟩ := h
  exact after?_of_apart hbegin (hapart w hw)

theorem Begins.head? (h : Begins ws t) (hblack : ∀ w ∈ ws, BeginsBlack w) :
    t.head?.any Text.isBlankChar = false := by
  obtain ⟨w, hw, rest, rfl⟩ := h
  have hbegin := hblack w hw
  rw [BeginsBlack] at hbegin
  cases hlist : w.toList with
  | nil =>
    rw [hlist] at hbegin
    cases hbegin
  | cons c u =>
    rw [hlist] at hbegin
    exact (Bool.not_eq_true' _).mp hbegin

theorem IsWord.begins (hx : IsWord w x) (t : List Char) : Begins [w] (x ++ t) := by
  obtain ⟨g, -, -, rfl⟩ := hx
  refine ⟨w, List.mem_singleton.mpr rfl, ?_⟩
  rw [List.append_assoc]
  exact List.prefix_append _ _

/-- A word that may be left out, in front of one of the others. -/
theorem Begins.mayBeWord (h : Begins ws t) (hx : MayBeWord w x) : Begins (w :: ws) (x ++ t) := by
  rcases hx with rfl | hx
  · obtain ⟨v, hv, hbegin⟩ := h
    exact ⟨v, List.mem_cons_of_mem w hv, hbegin⟩
  · obtain ⟨v, hv, hbegin⟩ := hx.begins t
    rw [List.mem_singleton] at hv
    exact ⟨v, by rw [hv]; exact List.mem_cons_self, hbegin⟩

theorem finds_some1 {p : Char → Bool} {u : List Char} (hne : u ≠ []) (hu : ∀ c ∈ u, p c = true)
    (hm : m.rest = u ++ rest) (hrest : rest.head?.any p = false) :
    Finds (some1 p) m (m.behind u rest) [] := by
  obtain ⟨c, u, rfl⟩ := List.exists_cons_of_ne_nil hne
  obtain ⟨hc, hu⟩ := List.forall_mem_cons.mp hu
  have hmore := finds_many (m := m.behind [c] (u ++ rest)) rfl hu hrest
  rw [← Spot.behind_cons] at hmore
  exact (finds_one hm hc).append hmore

theorem finds_gap {g : List Char} (hne : g ≠ []) (hg : ∀ c ∈ g, Text.isBlankChar c = true)
    (hm : m.rest = g ++ rest) (hrest : rest.head?.any Text.isBlankChar = false) :
    Finds gap m (m.behind g rest) [] := finds_some1 hne hg hm hrest

theorem finds_word (hx : IsWord w x) (hm : m.rest = x ++ rest)
    (hrest : rest.head?.any Text.isBlankChar = false) : Finds (word w) m (m.behind x rest) [] := by
  obtain ⟨g, hne, hg, rfl⟩ := hx
  rw [List.append_assoc] at hm
  have hgap := finds_gap (m := m.behind w.toList (g ++ rest)) hne hg rfl hrest
  rw [Spot.behind_behind] at hgap
  exact (finds_lit hm).append hgap

/-- A word that may be left out is found if it is there. -/
theorem finds_opt_word (hx : MayBeWord w x) (hm : m.rest = x ++ rest)
    (hrest : rest.head?.any Text.isBlankChar = false) (hnone : Text.after? w.toList rest = none) :
    Finds (opt (word w)) m (m.behind x rest) [] := by
  rcases hx with rfl | hx
  · have hm : rest = m.rest := hm.symm
    subst hm
    rw [Spot.behind_nil]
    apply finds_opt_nothing
    intro k
    exact run_append_of_lit hnone
  · exact (finds_word hx hm hrest).opt

/-- The marks of a word that is kept if it is there. -/
def wordMarks (s : Slot) (m : Spot) (x rest : List Char) : List (Slot × Spot) :=
  if x.isEmpty then [] else [(s, m), (s, m.behind x rest)]

theorem finds_flag (hx : MayBeWord w x) (hm : m.rest = x ++ rest)
    (hrest : rest.head?.any Text.isBlankChar = false) (hnone : Text.after? w.toList rest = none) :
    Finds (flag s w) m (m.behind x rest) (wordMarks s m x rest) := by
  rcases hx with rfl | hx
  · have hm : rest = m.rest := hm.symm
    subst hm
    rw [Spot.behind_nil]
    apply finds_opt_nothing
    intro k
    rw [run_keep, show word w = lit w ++ gap from rfl, run_append_of_lit hnone]
    rfl
  · have hmarks : wordMarks s m x rest = (s, m) :: [] ++ [(s, m.behind x rest)] :=
      if_neg (mt List.isEmpty_iff.mp hx.ne_nil)
    rw [hmarks]
    exact ((finds_word hx hm hrest).keep s).opt

/-! ## Beginnings -/

/-- May the pattern match without taking anything? -/
def mayBeEmpty : Pattern → Bool
  | exactly t => t.isEmpty
  | among ts => ts.any List.isEmpty
  | one _ => false
  | many _ | few _ | mark _ | first | last | edge => true
  | seq a b => mayBeEmpty a && mayBeEmpty b
  | either a b => mayBeEmpty a || mayBeEmpty b

/-- May what the pattern takes begin with the character? -/
def firsts (c : Char) : Pattern → Bool
  | exactly t => t.head? = some c
  | among ts => ts.any (·.head? = some c)
  | one p | many p | few p => p c
  | seq a b => firsts c a || (mayBeEmpty a && firsts c b)
  | either a b => firsts c a || firsts c b
  | mark _ | first | last | edge => false

theorem Matches.begins {a : Pattern} (h : Matches a m m' ms) :
    (m.rest = m'.rest ∧ a.mayBeEmpty = true) ∨
      ∃ c, m.rest.head? = some c ∧ a.firsts c = true := by
  induction h with
  | @exactly t rest m hrest =>
    cases t with
    | nil => exact .inl ⟨hrest, rfl⟩
    | cons c t => exact .inr ⟨c, by rw [hrest]; rfl, decide_eq_true rfl⟩
  | @among ts t rest m ht hrest =>
    cases t with
    | nil => exact .inl ⟨hrest, List.any_eq_true.mpr ⟨[], ht, rfl⟩⟩
    | cons c t =>
      exact .inr ⟨c, by rw [hrest]; rfl, List.any_eq_true.mpr ⟨c :: t, ht, decide_eq_true rfl⟩⟩
  | one hc hrest => exact .inr ⟨_, by rw [hrest]; rfl, hc⟩
  | @many p w rest m hw hrest | @few p w rest m hw hrest =>
    cases w with
    | nil => exact .inl ⟨hrest, rfl⟩
    | cons c w => exact .inr ⟨c, by rw [hrest]; rfl, hw c List.mem_cons_self⟩
  | seq _ _ iha ihb =>
    -- the second part begins the match only if the first one is empty
    rcases iha with ⟨heq, hempty⟩ | ⟨c, hc, hfirst⟩
    · rcases ihb with ⟨heq', hempty'⟩ | ⟨c, hc, hfirst⟩
      · exact .inl ⟨heq.trans heq', by rw [mayBeEmpty, hempty, hempty']; rfl⟩
      · refine .inr ⟨c, by rw [heq, hc], ?_⟩
        rw [firsts, hempty, hfirst, Bool.and_self, Bool.or_true]
    · exact .inr ⟨c, hc, by rw [firsts, hfirst, Bool.true_or]⟩
  | left _ ih =>
    refine ih.imp (fun h => ⟨h.1, ?_⟩) fun ⟨c, hc, hfirst⟩ => ⟨c, hc, ?_⟩
    · rw [mayBeEmpty, h.2, Bool.true_or]
    · rw [firsts, hfirst, Bool.true_or]
  | right _ ih =>
    refine ih.imp (fun h => ⟨h.1, ?_⟩) fun ⟨c, hc, hfirst⟩ => ⟨c, hc, ?_⟩
    · rw [mayBeEmpty, h.2, Bool.or_true]
    · rw [firsts, hfirst, Bool.or_true]
  | mark | first | last | edge => exact .inl ⟨rfl, rfl⟩

theorem firsts_append (c : Char) (a b : Pattern) :
    (a ++ b).firsts c = (a.firsts c || (a.mayBeEmpty && b.firsts c)) := by
  show (andThen a b).firsts c = _
  induction a with
  | seq a d _ ih =>
    rw [andThen, firsts, ih, firsts, mayBeEmpty]
    cases a.firsts c <;> cases a.mayBeEmpty <;> simp
  | _ => rfl

/-- Nothing that the pattern takes begins with a character of the class. -/
def NeverFirst (q : Char → Bool) (p : Pattern) : Prop := ∀ c, q c = true → p.firsts c = false

section

variable {q : Char → Bool} {a b : Pattern}

theorem neverFirst_blanks (hq : ∀ c, q c = true → Text.isBlankChar c = false) :
    NeverFirst q blanks := hq

theorem neverFirst_lit {v : String} (hv : v.toList.head?.any q = false) :
    NeverFirst q (lit v) := by
  intro c hc
  refine decide_eq_false ?_
  intro hhead
  rw [hhead, Option.any_some, hc] at hv
  cases hv

theorem NeverFirst.opt (ha : NeverFirst q a) : NeverFirst q (opt a) := by
  intro c hc
  show (a.firsts c || (lit "").firsts c) = false
  rw [ha c hc]
  rfl

theorem NeverFirst.append (ha : NeverFirst q a) (hb : NeverFirst q b) : NeverFirst q (a ++ b) := by
  intro c hc
  rw [firsts_append, ha c hc, hb c hc, Bool.and_false]
  rfl

/-- Behind something that is never empty anything may stand. -/
theorem NeverFirst.before (ha : NeverFirst q a) (hempty : a.mayBeEmpty = false) (b : Pattern) :
    NeverFirst q (a ++ b) := by
  intro c hc
  rw [firsts_append, ha c hc, hempty]
  rfl

/-- What never begins with a character of a class, and takes something, begins with another one. -/
theorem NeverFirst.head? (hb : NeverFirst q b) (hempty : b.mayBeEmpty = false)
    (h : Matches b m m' ms) : m.rest.head?.any q = false := by
  rcases h.begins with ⟨-, htrue⟩ | ⟨c, hc, hfirst⟩
  · rw [hempty] at htrue
    cases htrue
  · rw [hc]
    refine Bool.eq_false_iff.mpr ?_
    intro hq
    rw [hb c hq] at hfirst
    cases hfirst

theorem NeverFirst.refuses (hb : NeverFirst q b) (hempty : b.mayBeEmpty = false)
    {k : Spot → Option Match} {r : Match} (hrun : b.run k m = some r) :
    m.rest.head?.any q = false := by
  obtain ⟨m', ms, -, hmatch, -, -⟩ := exists_matches_of_run hrun
  exact hb.head? hempty hmatch

/-- So it leaves all of them to a repetition. -/
theorem NeverFirst.leaves (hb : NeverFirst q b) (hempty : b.mayBeEmpty = false)
    (k : Spot → Option Match) : Leaves q (b.run k) := .inr fun _ _ => hb.refuses hempty

end

/-! ## Ends -/

/-- May what the pattern takes end with the character? -/
def lasts (c : Char) : Pattern → Bool
  | exactly t => t.getLast? = some c
  | among ts => ts.any (·.getLast? = some c)
  | one p | many p | few p => p c
  | seq a b => lasts c b || (mayBeEmpty b && lasts c a)
  | either a b => lasts c a || lasts c b
  | mark _ | first | last | edge => false

theorem Matches.ends {a : Pattern} (h : Matches a m m' ms) :
    ∃ w, m.rest = w ++ m'.rest ∧ (w = [] ∧ a.mayBeEmpty = true ∨
      ∃ c, w.getLast? = some c ∧ a.lasts c = true) := by
  induction h with
  | @exactly t rest m hrest =>
    refine ⟨t, hrest, ?_⟩
    cases hlast : t.getLast? with
    | none =>
      obtain rfl := List.getLast?_eq_none_iff.mp hlast
      exact .inl ⟨rfl, rfl⟩
    | some c => exact .inr ⟨c, rfl, decide_eq_true hlast⟩
  | @among ts t rest m ht hrest =>
    refine ⟨t, hrest, ?_⟩
    cases hlast : t.getLast? with
    | none =>
      obtain rfl := List.getLast?_eq_none_iff.mp hlast
      exact .inl ⟨rfl, List.any_eq_true.mpr ⟨[], ht, rfl⟩⟩
    | some c => exact .inr ⟨c, rfl, List.any_eq_true.mpr ⟨t, ht, decide_eq_true hlast⟩⟩
  | @one p c rest m hc hrest => exact ⟨[c], hrest, .inr ⟨c, rfl, hc⟩⟩
  | @many p w rest m hw hrest | @few p w rest m hw hrest =>
    refine ⟨w, hrest, ?_⟩
    cases hlast : w.getLast? with
    | none => exact .inl ⟨List.getLast?_eq_none_iff.mp hlast, rfl⟩
    | some c => exact .inr ⟨c, rfl, hw c (List.mem_of_getLast? hlast)⟩
  | seq _ _ iha ihb =>
    obtain ⟨v, hv, hlastv⟩ := iha
    obtain ⟨w, hw, hlastw⟩ := ihb
    refine ⟨v ++ w, by rw [hv, hw, List.append_assoc], ?_⟩
    -- the first part ends the match only if the second one is empty
    rcases hlastw with ⟨rfl, hempty⟩ | ⟨c, hc, hlast⟩
    · rw [List.append_nil]
      rcases hlastv with ⟨rfl, hempty'⟩ | ⟨c, hc, hlast⟩
      · exact .inl ⟨rfl, by rw [mayBeEmpty, hempty, hempty']; rfl⟩
      · exact .inr ⟨c, hc, by rw [lasts, hempty, hlast, Bool.and_self, Bool.or_true]⟩
    · refine .inr ⟨c, ?_, by rw [lasts, hlast, Bool.true_or]⟩
      rw [List.getLast?_append, hc, Option.some_or]
  | left _ ih =>
    obtain ⟨w, hw, ⟨hnil, hempty⟩ | ⟨c, hc, hlast⟩⟩ := ih
    · exact ⟨w, hw, .inl ⟨hnil, by rw [mayBeEmpty, hempty, Bool.true_or]⟩⟩
    · exact ⟨w, hw, .inr ⟨c, hc, by rw [lasts, hlast, Bool.true_or]⟩⟩
  | right _ ih =>
    obtain ⟨w, hw, ⟨hnil, hempty⟩ | ⟨c, hc, hlast⟩⟩ := ih
    · exact ⟨w, hw, .inl ⟨hnil, by rw [mayBeEmpty, hempty, Bool.or_true]⟩⟩
    · exact ⟨w, hw, .inr ⟨c, hc, by rw [lasts, hlast, Bool.or_true]⟩⟩
  | mark | first | last | edge => exact ⟨[], rfl, .inl ⟨rfl, rfl⟩⟩

theorem mayBeEmpty_append (a b : Pattern) :
    (a ++ b).mayBeEmpty = (a.mayBeEmpty && b.mayBeEmpty) := by
  show (andThen a b).mayBeEmpty = _
  induction a with
  | seq a d _ ih => rw [andThen, mayBeEmpty, ih, mayBeEmpty, Bool.and_assoc]
  | _ => rfl

theorem lasts_append (c : Char) (a b : Pattern) :
    (a ++ b).lasts c = (b.lasts c || (b.mayBeEmpty && a.lasts c)) := by
  show (andThen a b).lasts c = _
  induction a with
  | seq a d _ ih =>
    have hempty : (andThen d b).mayBeEmpty = (d.mayBeEmpty && b.mayBeEmpty) := mayBeEmpty_append d b
    rw [andThen, lasts, ih, hempty, lasts]
    cases b.lasts c <;> cases b.mayBeEmpty <;> simp
  | _ => rfl

/-- Nothing that the pattern takes ends with a character of the class. -/
def NeverLast (q : Char → Bool) (p : Pattern) : Prop := ∀ c, q c = true → p.lasts c = false

section

variable {q : Char → Bool} {a b : Pattern}

theorem neverLast_blanks (hq : ∀ c, q c = true → Text.isBlankChar c = false) :
    NeverLast q blanks := hq

theorem neverLast_lit {v : String} (hv : v.toList.getLast?.any q = false) :
    NeverLast q (lit v) := by
  intro c hc
  refine decide_eq_false ?_
  intro hlast
  rw [hlast, Option.any_some, hc] at hv
  cases hv

theorem NeverLast.opt (ha : NeverLast q a) : NeverLast q (opt a) := by
  intro c hc
  show (a.lasts c || (lit "").lasts c) = false
  rw [ha c hc]
  rfl

theorem NeverLast.append (ha : NeverLast q a) (hb : NeverLast q b) : NeverLast q (a ++ b) := by
  intro c hc
  rw [lasts_append, ha c hc, hb c hc, Bool.and_false]
  rfl

/-- In front of something that is never empty anything may stand. -/
theorem NeverLast.behind (hb : NeverLast q b) (hempty : b.mayBeEmpty = false) (a : Pattern) :
    NeverLast q (a ++ b) := by
  intro c hc
  rw [lasts_append, hb c hc, hempty]
  rfl

theorem neverLast_gap (hq : ∀ c, q c = true → Text.isBlankChar c = false) : NeverLast q gap :=
  (show NeverLast q (one Text.isBlankChar) from hq).append (neverLast_blanks hq)

/-- A word has a blank at its end. -/
theorem neverLast_word (hq : ∀ c, q c = true → Text.isBlankChar c = false) (w : String) :
    NeverLast q (word w) := (neverLast_gap hq).behind rfl (lit w)

theorem NeverLast.keep (ha : NeverLast q a) (s : Slot) : NeverLast q (keep s a) := by
  intro c hc
  show (mark s ++ a ++ mark s).lasts c = false
  rw [lasts_append, lasts_append, ha c hc]
  cases a.mayBeEmpty <;> rfl

theorem neverLast_flag (hq : ∀ c, q c = true → Text.isBlankChar c = false) (s : Slot)
    (w : String) : NeverLast q (flag s w) := ((neverLast_word hq w).keep s).opt

/-- What is matched by such a pattern does not end with a character of the class. -/
theorem NeverLast.getLast? (ha : NeverLast q a) (h : Matches a m m' ms) :
    ∃ w, m.rest = w ++ m'.rest ∧ w.getLast?.any q = false := by
  obtain ⟨w, hw, ⟨rfl, -⟩ | ⟨c, hc, hlast⟩⟩ := h.ends
  · exact ⟨[], hw, rfl⟩
  · refine ⟨w, hw, ?_⟩
    rw [hc, Option.any_some]
    refine Bool.eq_false_iff.mpr fun hq => ?_
    rw [ha c hq] at hlast
    cases hlast

end

/-! ## Names -/

/-- A name of the given characters, from its first one on. -/
def IsNameOf (p q : Char → Bool) (w : List Char) : Prop :=
  ∃ c u, w = c :: u ∧ p c = true ∧ ∀ d ∈ u, q d = true

variable {p q : Char → Bool} {k : Spot → Option Match} {r : Match} {u : List Char}

theorem isNameOf_singleton {c : Char} (h : p c = true) : IsNameOf p q [c] :=
  ⟨c, [], rfl, h, List.forall_mem_nil _⟩

/-- What is matched by the pattern of a name is one, though more of it may stand behind. -/
theorem Matches.of_name (h : Matches (Pattern.one p ++ Pattern.many q) m m' ms) :
    ∃ u, IsNameOf p q u ∧ m.rest = u ++ m'.rest ∧ ms = [] := by
  obtain ⟨m₁, ms₁, ms₂, hstart, hmore, rfl⟩ := matches_append_iff.mp h
  cases hstart with
  | @one _ c rest _ hc hrest =>
    cases hmore with
    | @many _ u rest' _ hu hrest' =>
      refine ⟨c :: u, ⟨c, u, rfl, hc, hu⟩, ?_, rfl⟩
      rw [hrest, List.cons_append]
      exact congrArg (c :: ·) hrest'

theorem finds_name (hname : IsNameOf p q u) (hm : m.rest = u ++ rest)
    (hrest : rest.head?.any q = false) : Finds (one p ++ many q) m (m.behind u rest) [] := by
  obtain ⟨c, u, rfl, hc, hu⟩ := hname
  have hmore := finds_many (p := q) (m := m.behind [c] (u ++ rest)) rfl hu hrest
  rw [← Spot.behind_cons] at hmore
  exact (finds_one hm hc).append hmore

/-- A name that is kept in front of something that does not need any of it. -/
theorem exists_name_of_run (hk : Leaves q k)
    (h : (keep .name (one p ++ many q)).run k m = some r) :
    ∃ u rest r', IsNameOf p q u ∧ m.rest = u ++ rest ∧ rest.head?.any q = false ∧
      k (m.behind u rest) = some r' ∧
      r = Match.after [(.name, m), (.name, m.behind u rest)] r' := by
  -- the mark behind the name does not change what follows it
  have hmarked : Leaves q fun m' => (k m').map (·.mark .name m') := by
    rcases hk with htotal | hrefuses
    · exact .inl fun m => by rw [Option.isSome_map, htotal m]
    · refine .inr fun m r hr => ?_
      obtain ⟨r', hr', -⟩ := Option.map_eq_some_iff.mp hr
      exact hrefuses m r' hr'
  rw [run_keep, run_append] at h
  obtain ⟨r₁, hrun, rfl⟩ := Option.map_eq_some_iff.mp h
  cases hm : m.rest with
  | nil =>
    rw [run, hm] at hrun
    cases hrun
  | cons c t =>
    by_cases hc : p c = true
    · rw [run_one hm hc] at hrun
      obtain ⟨u, rest, hu, htail, hrest, hr⟩ := exists_all_of_run_many hmarked hrun
      obtain ⟨r', hr', rfl⟩ := Option.map_eq_some_iff.mp hr
      have hsplit : c :: t = c :: u ++ rest := congrArg (c :: ·) htail
      rw [← Spot.behind_cons] at hr' ⊢
      exact ⟨c :: u, rest, r', ⟨c, u, rfl, hc, hu⟩, hsplit, hrest, hr', rfl⟩
    · rw [run_one_of_not hm (Bool.eq_false_iff.mpr hc)] at hrun
      cases hrun

/-- The text between two marks is the part of the match. -/
theorem part?_of_marks {a : Spot} {b : List (Slot × Spot)}
    (hmarks : b ++ [(s, a), (s, a.behind u rest)] <+: r.marks)
    (hbefore : s ∉ b.map (·.1)) (ha : a.Exact) (hu : a.rest = u ++ rest) :
    r.part? s = some u := by
  obtain ⟨behind, hmarks⟩ := hmarks
  have hfilter : r.marks.filter (·.1 = s) =
      (s, a) :: (s, a.behind u rest) :: behind.filter (·.1 = s) := by
    rw [← hmarks, List.filter_append, List.filter_append, filter_marks_eq_nil hbefore]
    simp
  have hlength : a.left - (a.behind u rest).left = u.length := by
    have hleft : a.left = u.length + rest.length := by
      rw [ha, hu, List.length_append]
    show a.left - (a.left - u.length) = u.length
    omega
  rw [Match.part?, hfilter]
  simp only [hlength, hu, List.take_left]

theorem part_of_marks {a : Spot} {b : List (Slot × Spot)}
    (hmarks : b ++ [(s, a), (s, a.behind u rest)] <+: r.marks)
    (hbefore : s ∉ b.map (·.1)) (ha : a.Exact) (hu : a.rest = u ++ rest) :
    r.part s = u := by
  rw [Match.part, part?_of_marks hmarks hbefore ha hu, Option.getD_some]

/-- A match without marks of the slot has no such part. -/
theorem part?_eq_none_of_marks (h : s ∉ r.marks.map (·.1)) : r.part? s = none := by
  rw [Match.part?, filter_marks_eq_nil h]

/-- A header of words and a name, of which what stands behind it does not need any. -/
structure Names (header front back : Pattern) (p q : Char → Bool) : Prop where
  run (m : Spot) : header.run (fun m => some (.done m)) m =
    (front ++ keep .name (one p ++ many q)).run (back.run fun m => some (.done m)) m
  onlyName : Slot.name ∉ slots front
  leaves : Leaves q (back.run fun m => some (.done m))

theorem run_of_split {header front inner back : Pattern} (h : header = front ++ inner ++ back)
    (k : Spot → Option Match) (m : Spot) :
    header.run k m = (front ++ inner).run (back.run k) m := by
  rw [h, run_append]

/-- What a header names is all that can be read as a name behind its words; which words there
are is seen in front of it. -/
theorem Names.exists_name {header front back : Pattern} (hheader : Names header front back p q)
    (h : header.match? t = some r) :
    ∃ m ms rest, Matches front (.start t) m ms ∧ IsNameOf p q (r.part .name) ∧
      m.rest = r.part .name ++ rest ∧ rest.head?.any q = false ∧
      ∀ s ≠ .name, s ∉ slots back → r.has s = ms.any (·.1 = s) := by
  rw [match?_eq_run, hheader.run, run_append] at h
  obtain ⟨m, ms, r₁, hfront, hrun, rfl⟩ := exists_matches_of_run h
  obtain ⟨u, rest, r', hname, hm, hrest, hback, rfl⟩ := exists_name_of_run hheader.leaves hrun
  have hexact : m.Exact := hfront.exact rfl
  -- the front has no mark of the name, so the marks around it are the first
  have hpart : (Match.after ms (Match.after [(.name, m), (.name, m.behind u rest)] r')).part
      .name = u := by
    refine part_of_marks ⟨r'.marks, ?_⟩ (mt hfront.mem_slots hheader.onlyName) hexact hm
    exact List.append_assoc ms _ r'.marks
  rw [hpart]
  refine ⟨m, ms, rest, hfront, hname, hm, hrest, ?_⟩
  intro s hs hslots
  obtain ⟨m', ms', r'', hbehind, hdone, rfl⟩ := exists_matches_of_run hback
  cases hdone
  have hnone : ms'.any (·.1 = s) = false := by
    refine List.any_eq_false.mpr ?_
    intro mark hmark heq
    refine hslots (hbehind.mem_slots ?_)
    rw [← of_decide_eq_true heq]
    exact List.mem_map_of_mem hmark
  simp [Match.has, Match.after, Match.done, hnone, Ne.symm hs]

end Pattern

/-! ## Characters of names -/

namespace Text

/-- No blank is a word character. -/
theorem isWordChar_of_isBlankChar {c : Char} (h : isBlankChar c = true) : isWordChar c = false := by
  -- the blanks, written out
  have hall : ∀ n ∈ [9, 10, 11, 12, 13, 0x20, 0x85, 0xA0, 0x1680, 0x2000, 0x2001, 0x2002, 0x2003,
      0x2004, 0x2005, 0x2006, 0x2007, 0x2008, 0x2009, 0x200A, 0x2028, 0x2029, 0x202F, 0x205F,
      0x3000], isWordChar (Char.ofNat n) = false := by
    decide +kernel
  rw [← Char.ofNat_toNat c]
  apply hall
  simp only [isBlankChar, Bool.or_eq_true, Bool.and_eq_true, decide_eq_true_eq] at h
  simp only [List.mem_cons, List.not_mem_nil, or_false]
  omega

theorem isBlankChar_of_isNameChar {c : Char} (h : isNameChar c = true) : isBlankChar c = false := by
  refine Bool.eq_false_iff.mpr ?_
  intro hblank
  rw [isNameChar, isWordChar_of_isBlankChar hblank, Bool.false_or, decide_eq_true_eq] at h
  rw [h] at hblank
  revert hblank
  decide

theorem isNameChar_of_isNameStart {c : Char} (h : isNameStart c = true) : isNameChar c = true := by
  simp only [isNameStart, Bool.or_eq_true, decide_eq_true_eq] at h
  rcases h with (halpha | rfl) | rfl
  · have hword := isWordChar_of_isAlphanum (Bool.or_eq_true_iff.mpr (.inl halpha))
    rw [isNameChar, hword, Bool.true_or]
  · decide
  · decide

theorem isNameChar_of_mem {u : List Char} (h : Pattern.IsNameOf isNameStart isNameChar u)
    {c : Char} (hc : c ∈ u) : isNameChar c = true := by
  obtain ⟨d, v, rfl, hd, hv⟩ := h
  rcases List.mem_cons.mp hc with rfl | hmem
  · exact isNameChar_of_isNameStart hd
  · exact hv c hmem

theorem not_mem_of_isName {u : List Char} (h : Pattern.IsNameOf isNameStart isNameChar u)
    {c : Char} (hc : isNameChar c = false) : c ∉ u := by
  intro hmem
  rw [isNameChar_of_mem h hmem] at hc
  cases hc

end Text

end CodeAtlas
