/-
Type arguments and clauses in headers.

The headers of classes and interfaces have types between angle brackets and clauses with lists
of types, printed here as they are written. The patterns read type arguments from an angle
bracket to the first one that closes, since what follows them may be left out as a whole, so
that nothing makes them go on. So arguments that have no closing angle bracket inside are read
as they stand, and what follows is read too (`behindAngle_of_not_mem`). Nested ones end too
early (`behindAngle_of_mem`), and a clause behind them is not found, unless one of their own
texts goes on like a clause (`GoesOnWith`).
-/
import CodeAtlas.Proofs.Header.Export
import CodeAtlas.Proofs.Nesting.Cutting

set_option autoImplicit false

namespace CodeAtlas.Brace

open Pattern

/-! ## Headers as they are written -/

/-- A type as it stands in a header: a piece of a list without curly brackets. -/
structure IsType (t : List Char) : Prop extends IsPiece t where
  noBrace : '\x7b' ∉ t ∧ '\x7d' ∉ t

instance (t : List Char) : Decidable (IsType t) :=
  decidable_of_iff (IsPiece t ∧ '\x7b' ∉ t ∧ '\x7d' ∉ t)
    ⟨fun h => ⟨h.1, h.2⟩, fun h => ⟨h.toIsPiece, h.noBrace⟩⟩

/-- Types between angle brackets, if there are any. -/
def angled (ts : List (List Char)) : List Char :=
  if ts.isEmpty then [] else '<' :: (listed ts ++ ['>'])

/-- A clause behind a blank. -/
def clause (w : String) (t : List Char) : List Char := ' ' :: (w.toList ++ ' ' :: t)

/-- A word with a blank, if it is there. -/
def wordIf (present : Bool) (w : String) : List Char :=
  if present then w.toList ++ [' '] else []

/-- A clause with a list of types, if there are any. -/
def listClause (w : String) (ts : List (List Char)) : List Char :=
  if ts.isEmpty then [] else clause w (listed ts)

/-! ## Clauses -/

/-- The text goes on with the word, with blanks in front of it and behind it. -/
def GoesOnWith (w : String) (t : List Char) : Prop :=
  ∃ g x rest, g ≠ [] ∧ (∀ c ∈ g, Text.isBlankChar c = true) ∧ IsWord w x ∧ t = g ++ (x ++ rest)

/-- Behind the first closing angle bracket inside, the text does not go on like a clause. -/
def GoesOnPlainly (t : List Char) : Prop :=
  ∀ u v, t = u ++ '>' :: v → '>' ∉ u → ¬ GoesOnWith "extends" v ∧ ¬ GoesOnWith "implements" v

section

variable {w v : String} {c : Char} {t u : List Char}

/-- One blank in front of a clause is all. -/
theorem prefix_of_goesOnWith (hc : Text.isBlankChar c = false) (h : GoesOnWith w (' ' :: c :: t)) :
    w.toList <+: c :: t := by
  obtain ⟨g, x, rest, hne, hg, ⟨g', -, -, rfl⟩, heq⟩ := h
  obtain ⟨b, g, rfl⟩ := List.exists_cons_of_ne_nil hne
  have htail : c :: t = g ++ (w.toList ++ g' ++ rest) := (List.cons.inj heq).2
  cases g with
  | nil =>
    rw [List.nil_append, List.append_assoc] at htail
    exact ⟨g' ++ rest, htail.symm⟩
  | cons d g =>
    have hd := hg d (List.mem_cons_of_mem b List.mem_cons_self)
    rw [← (List.cons.inj htail).1, hc] at hd
    cases hd

/-- A clause with one word is no clause with another. -/
theorem not_goesOnWith_clause (hapart : Apart w v) (hv : BeginsBlack v) :
    ¬ GoesOnWith w (clause v t ++ u) := by
  intro h
  rw [BeginsBlack] at hv
  cases hlist : v.toList with
  | nil =>
    rw [hlist] at hv
    cases hv
  | cons c rest =>
    have hc : Text.isBlankChar c = false := by
      rw [hlist] at hv
      exact (Bool.not_eq_true' _).mp hv
    rw [clause, hlist] at h
    have hprefix := prefix_of_goesOnWith hc h
    have hword : v.toList <+: c :: ((rest ++ ' ' :: t) ++ u) := by
      rw [hlist]
      exact ⟨' ' :: t ++ u, by simp⟩
    rcases List.prefix_or_prefix_of_prefix hprefix hword with hle | hle
    · exact hapart.1 hle
    · exact hapart.2 hle

theorem not_goesOnWith_brace (hw : w.toList.head? ≠ some '\x7b') (hb : BeginsBlack w) :
    ¬ GoesOnWith w " \x7b".toList := by
  intro h
  obtain ⟨rest, hrest⟩ := prefix_of_goesOnWith (c := '\x7b') (by decide) h
  rw [BeginsBlack] at hb
  cases hlist : w.toList with
  | nil =>
    rw [hlist] at hb
    cases hb
  | cons d s =>
    rw [hlist] at hrest hw
    exact hw (congrArg some (List.cons.inj hrest).1)

/-- A clause begins in front of the first angle bracket that closes, or behind it. -/
theorem GoesOnWith.of_append_angle (h : GoesOnWith w (t ++ '>' :: u)) (hw : '>' ∉ w.toList) :
    GoesOnWith w t := by
  obtain ⟨g, x, rest, hne, hg, hx, heq⟩ := h
  rw [← List.append_assoc] at heq
  have hfree : '>' ∉ g ++ x := by
    rw [List.mem_append, not_or]
    refine ⟨?_, hx.not_mem hw (by decide)⟩
    intro hmem
    have hblank := hg _ hmem
    revert hblank
    decide
  -- neither the blanks nor the word reach over the bracket
  have hprefix : g ++ x <+: t := by
    have hwhole : g ++ x <+: t ++ '>' :: u := ⟨rest, heq.symm⟩
    rcases List.prefix_or_prefix_of_prefix hwhole (List.prefix_append t _) with hle | ⟨s, hs⟩
    · exact hle
    · cases s with
      | nil =>
        rw [List.append_nil] at hs
        exact ⟨[], by rw [List.append_nil, hs]⟩
      | cons d s =>
        obtain ⟨r, hr⟩ := hwhole
        rw [← hs, List.append_assoc] at hr
        have hd := (List.cons.inj (List.append_cancel_left hr)).1
        refine absurd ?_ hfree
        rw [← hs, ← hd]
        exact List.mem_append_right t List.mem_cons_self
  obtain ⟨s, hs⟩ := hprefix
  refine ⟨g, x, s, hne, hg, hx, ?_⟩
  rw [← hs, List.append_assoc]

end

/-! ## Following type arguments -/

/-- What follows the arguments as they are read: the text behind the first closing angle
bracket. -/
def behindAngle (ts : List (List Char)) (more : List Char) : List Char :=
  if ts.isEmpty then more else ((listed ts ++ '>' :: more).dropWhile (· ≠ '>')).drop 1

/-- The text behind the arguments: one blank, and no angle bracket. -/
def Follows (t : List Char) : Prop :=
  ∃ c u, t = ' ' :: c :: u ∧ Text.isBlankChar c = false ∧ c ≠ '<'

section

variable {ts : List (List Char)} {more u v : List Char}

theorem dropWhile_angle (hu : '>' ∉ u) (v : List Char) :
    ((u ++ '>' :: v).dropWhile (· ≠ '>')).drop 1 = v := by
  have hkeep : ∀ c ∈ u, decide (c ≠ '>') = true := by
    intro c hc
    refine decide_eq_true ?_
    rintro rfl
    exact hu hc
  rw [List.dropWhile_append_of_pos hkeep]
  rfl

theorem behindAngle_of_not_mem (h : '>' ∉ listed ts) (more : List Char) :
    behindAngle ts more = more := by
  rw [behindAngle]
  split
  · rfl
  · exact dropWhile_angle h more

theorem behindAngle_of_mem (h : '>' ∈ listed ts) : ∃ u v, listed ts = u ++ '>' :: v ∧ '>' ∉ u ∧
    ∀ more, behindAngle ts more = v ++ '>' :: more := by
  obtain ⟨u, v, hsplit, hu⟩ := List.eq_append_cons_of_mem h
  have hne : ts.isEmpty = false := by
    cases ts with
    | nil => cases h
    | cons t ts => rfl
  refine ⟨u, v, hsplit, hu, ?_⟩
  intro more
  rw [behindAngle, hne, if_neg Bool.false_ne_true, hsplit, List.append_assoc, List.cons_append,
    dropWhile_angle hu]

/-- The text between the brackets, up to the first one that closes. -/
theorem exists_angled (hne : ts ≠ []) (more : List Char) : ∃ u, '>' ∉ u ∧
    angled ts ++ more = '<' :: (u ++ '>' :: behindAngle ts more) ∧ u <+: listed ts ∧
      ('>' ∉ listed ts → u = listed ts) := by
  have hangled : angled ts ++ more = '<' :: (listed ts ++ '>' :: more) := by
    rw [angled, if_neg (by simpa using hne)]
    simp
  rw [hangled]
  by_cases hmem : '>' ∈ listed ts
  · obtain ⟨u, v, hsplit, hu, hbehind⟩ := behindAngle_of_mem hmem
    refine ⟨u, hu, ?_, ⟨'>' :: v, hsplit.symm⟩, fun hnone => absurd hmem hnone⟩
    rw [hbehind, hsplit, List.append_assoc, List.cons_append]
  · refine ⟨listed ts, hmem, ?_, List.prefix_rfl, fun _ => rfl⟩
    rw [behindAngle_of_not_mem hmem]

/-- A name ends in front of arguments, or in front of what follows them. -/
theorem head?_angled {q : Char → Bool} (hspace : q ' ' = false) (hangle : q '<' = false)
    (h : Follows more) : (angled ts ++ more).head?.any q = false := by
  rw [angled]
  split
  · obtain ⟨c, u, rfl, -⟩ := h
    exact hspace
  · exact hangle

theorem noBrace_listed (hts : ∀ t ∈ ts, IsType t) : '\x7b' ∉ listed ts := by
  induction ts with
  | nil => exact List.not_mem_nil
  | cons t ts ih =>
    obtain ⟨ht, hmore⟩ := List.forall_mem_cons.mp hts
    by_cases hnil : ts = []
    · rw [hnil, listed, List.intercalate_singleton]
      exact ht.noBrace.1
    · rw [listed, List.intercalate_cons_of_ne_nil hnil]
      simp only [List.mem_append, not_or]
      exact ⟨⟨ht.noBrace.1, by decide⟩, ih hmore⟩

theorem noneOf_brace {t : List Char} (h : '\x7b' ∉ t) : ∀ c ∈ t, noneOf "\x7b" c = true := by
  intro c hc
  rw [noneOf, Bool.not_eq_true', List.contains_eq_mem, decide_eq_false_iff_not]
  intro hmem
  rw [List.mem_singleton.mp hmem] at hc
  exact h hc

/-- Where there are no arguments, the pattern takes nothing. -/
theorem finds_typeArguments_nothing {m : Spot} (h : Follows m.rest) :
    Finds typeArguments m m [] := by
  apply finds_opt_of_not
  intro m' ms hmatch
  obtain ⟨c, u, hrest, hc, hne⟩ := h
  obtain ⟨m₁, ms₁, ms₂, hfront, -, -⟩ := matches_append_iff.mp hmatch
  obtain ⟨m₂, ms₃, ms₄, hfront, -, -⟩ := matches_append_iff.mp hfront
  obtain ⟨m₃, ms₅, ms₆, hblanks, hangle, -⟩ := matches_append_iff.mp hfront
  obtain ⟨g, hg, hbehind, -⟩ := hblanks.of_blanks
  rw [hangle.rest_of_lit, hrest] at hbehind
  cases g with
  | nil => cases (List.cons.inj hbehind).1
  | cons b g =>
    have htail : c :: u = g ++ ("<".toList ++ m₂.rest) := (List.cons.inj hbehind).2
    cases g with
    | nil => exact hne (List.cons.inj htail).1
    | cons d g =>
      have hd := hg d (List.mem_cons_of_mem b List.mem_cons_self)
      rw [← (List.cons.inj htail).1, hc] at hd
      cases hd

/-- The arguments are read up to the first closing angle bracket. -/
theorem exists_finds_typeArguments (hts : ∀ t ∈ ts, IsType t) {m : Spot}
    (hm : m.rest = angled ts ++ more) (hmore : Follows more) :
    ∃ m', Finds typeArguments m m' [] ∧ m'.rest = behindAngle ts more := by
  by_cases hnil : ts = []
  · rw [hnil] at hm ⊢
    exact ⟨m, finds_typeArguments_nothing (hm ▸ hmore), hm⟩
  · obtain ⟨u, hu, hangled, hbegin, -⟩ := exists_angled hnil more
    rw [hangled] at hm
    have hbrace : ∀ c ∈ u, noneOf "\x7b" c = true :=
      noneOf_brace fun hmem => noBrace_listed hts (hbegin.subset hmem)
    let m₁ := m.behind [] ('<' :: (u ++ '>' :: behindAngle ts more))
    let m₂ := m₁.behind "<".toList (u ++ '>' :: behindAngle ts more)
    have hblanks : Finds blanks m m₁ [] := finds_many hm (by simp) rfl
    have hopen : Finds (lit "<") m₁ m₂ [] := finds_lit rfl
    have hclose := (finds_few_sign (s := ">") rfl (m := m₂) rfl hbrace hu .params).1
    have hall := ((hblanks.append hopen).append hclose).opt
    exact ⟨_, hall, rfl⟩

end

/-! ## Following clauses -/

/-- The marks keep the text under the slot, or nothing. -/
inductive Keeps (s : Slot) : Option (List Char) → List (Slot × Spot) → Prop where
  | nothing : Keeps s none []
  | text {a : Spot} {u rest : List Char} : a.Exact → a.rest = u ++ rest →
      Keeps s (some u) [(s, a), (s, a.behind u rest)]

theorem Keeps.part? {s : Slot} {kept : Option (List Char)} {ms u v : List (Slot × Spot)}
    (h : Keeps s kept ms) {r : Match} (hmarks : r.marks = u ++ (ms ++ v))
    (hbefore : s ∉ u.map (·.1)) (hafter : s ∉ v.map (·.1)) : r.part? s = kept := by
  cases h with
  | nothing =>
    refine part?_eq_none_of_marks ?_
    rw [hmarks, List.nil_append, List.map_append, List.mem_append, not_or]
    exact ⟨hbefore, hafter⟩
  | @text a _ rest hexact hrest =>
    refine part?_of_marks ⟨v, ?_⟩ hbefore hexact hrest
    rw [hmarks, List.append_assoc]

theorem Match.part?_after {s : Slot} {ms : List (Slot × Spot)} (h : s ∉ ms.map (·.1))
    (r : Match) : (Match.after ms r).part? s = r.part? s := by
  simp only [Match.part?, Match.after, List.filter_append, filter_marks_eq_nil h,
    List.nil_append]

/-- A match that is found in a text that is left has marks of the pattern only. -/
theorem mem_slots_of_run {p : Pattern} {m : Spot} {r : Match}
    (h : p.run (fun m => some (.done m)) m = some r) {s : Slot} (hs : s ∈ r.marks.map (·.1)) :
    s ∈ slots p := by
  obtain ⟨m', ms, r', hmatch, hdone, rfl⟩ := exists_matches_of_run h
  cases hdone
  refine hmatch.mem_slots ?_
  simpa [Match.after, Match.done] using hs

theorem has_eq_false_of_run {p : Pattern} {m : Spot} {r : Match}
    (h : p.run (fun m => some (.done m)) m = some r) {s : Slot} (hs : s ∉ slots p) :
    r.has s = false := by
  refine List.any_eq_false.mpr ?_
  intro mark hmark heq
  refine hs (mem_slots_of_run h ?_)
  rw [← of_decide_eq_true heq]
  exact List.mem_map_of_mem hmark

/-- The pattern of a clause that keeps a text. -/
def keptClause (w : String) (s : Slot) (p q : Char → Bool) : Pattern :=
  gap ++ word w ++ keep s (one p ++ many q)

section

variable {w : String} {s : Slot} {p q : Char → Bool} {u rest : List Char} {m : Spot}

theorem exists_finds_clause (hu : IsNameOf p q u) (hblack : u.head?.any Text.isBlankChar = false)
    (hrest : rest.head?.any q = false) (hw : BeginsBlack w) (hexact : m.Exact)
    (hm : m.rest = clause w (u ++ rest)) :
    ∃ m' ms, Finds (keptClause w s p q) m m' ms ∧ Keeps s (some u) ms ∧ m'.rest = rest := by
  have hword : IsWord w (w.toList ++ [' ']) := isWord_space w
  have hrestword : m.rest = [' '] ++ ((w.toList ++ [' ']) ++ (u ++ rest)) := by
    rw [hm, clause]
    simp
  have hbegins : Begins [w] ((w.toList ++ [' ']) ++ (u ++ rest)) := hword.begins _
  have hgap := finds_gap (List.cons_ne_nil ' ' []) isBlankChar_space hrestword
    (hbegins.head? (by simpa using hw))
  have hbehind : (u ++ rest).head?.any Text.isBlankChar = false := by
    obtain ⟨c, v, rfl, -⟩ := hu
    exact hblack
  have hfront := hgap.append (finds_word hword rfl hbehind)
  have hall := hfront.append ((finds_name hu rfl hrest).keep s)
  exact ⟨_, _, hall, .text (hfront.matches.exact hexact) rfl, rfl⟩

theorem goesOnWith_of_matches {back : Pattern} {m' : Spot} {ms : List (Slot × Spot)}
    (h : Matches (gap ++ word w ++ back) m m' ms) : GoesOnWith w m.rest := by
  obtain ⟨m₁, ms₁, ms₂, hfront, -, -⟩ := matches_append_iff.mp h
  obtain ⟨m₂, ms₃, ms₄, hgap, hword, -⟩ := matches_append_iff.mp hfront
  obtain ⟨g, hne, hg, hbehind, -⟩ := hgap.of_gap
  obtain ⟨x, hx, hrest, -⟩ := hword.of_word
  exact ⟨g, x, m₁.rest, hne, hg, hx, by rw [hbehind, hrest]⟩

/-- A clause that does not follow is left out. -/
theorem finds_clause_nothing {back : Pattern} (h : ¬ GoesOnWith w m.rest) :
    Finds (opt (gap ++ word w ++ back)) m m [] :=
  finds_opt_of_not fun _ _ hmatch => h (goesOnWith_of_matches hmatch)

end

/-! ### Lists of types -/

/-- The types with the blank in front of the curly bracket, if there are any. -/
def keptList (ts : List (List Char)) : Option (List Char) :=
  if ts.isEmpty then none else some (listed ts ++ [' '])

theorem typeList_keptList {ts : List (List Char)} (hts : ∀ t ∈ ts, IsType t) :
    typeList (keptList ts) = ts.map textOf := by
  by_cases hnil : ts.isEmpty = true
  · rw [keptList, if_pos hnil, List.isEmpty_iff.mp hnil]
    rfl
  · rw [keptList, if_neg hnil, typeList,
      splitOuter_listed (fun t ht => (hts t ht).toIsPiece) (g := [' ']) (by decide)]

theorem exists_cons_listed {ts : List (List Char)} (hts : ∀ t ∈ ts, IsType t) (hne : ts ≠ []) :
    ∃ c u, listed ts = c :: u ∧ Text.isBlankChar c = false := by
  obtain ⟨t, ts, rfl⟩ := List.exists_cons_of_ne_nil hne
  have ht := hts t List.mem_cons_self
  have hblack : Text.trim t ≠ [] := by
    rw [ht.trimmed]
    exact ht.ne_nil
  obtain ⟨g, c, v, -, hc, -, htrim⟩ := Text.exists_cons_of_trim_ne_nil hblack
  rw [ht.trimmed] at htrim
  by_cases hnil : ts = []
  · exact ⟨c, _, by rw [hnil, listed, List.intercalate_singleton, htrim], hc⟩
  · exact ⟨c, _, by rw [listed, List.intercalate_cons_of_ne_nil hnil, htrim]; rfl, hc⟩

/-- A clause with a list of types, up to the curly bracket. -/
theorem exists_finds_listClause {w : String} {ts : List (List Char)} {m : Spot}
    (hw : BeginsBlack w) (hts : ∀ t ∈ ts, IsType t) (hexact : m.Exact)
    (hbrace : w.toList.head? ≠ some '\x7b') (hm : m.rest = listClause w ts ++ " \x7b".toList) :
    ∃ m' ms, Finds (opt (keptClause w .bases (noneOf "\x7b") (noneOf "\x7b"))) m m' ms ∧
      Keeps .bases (keptList ts) ms := by
  by_cases hnil : ts = []
  · refine ⟨m, [], finds_clause_nothing ?_, ?_⟩
    · rw [hm, hnil]
      exact not_goesOnWith_brace hbrace hw
    · rw [hnil]
      exact .nothing
  · obtain ⟨c, u, hlist, hc⟩ := exists_cons_listed hts hnil
    have hfree : '\x7b' ∉ listed ts ++ [' '] := by
      rw [List.mem_append, not_or]
      exact ⟨noBrace_listed hts, by decide⟩
    have hname : IsNameOf (noneOf "\x7b") (noneOf "\x7b") (listed ts ++ [' ']) := by
      have hall := noneOf_brace hfree
      rw [hlist] at hall ⊢
      exact ⟨c, u ++ [' '], rfl, List.forall_mem_cons.mp hall⟩
    have hblack : (listed ts ++ [' ']).head?.any Text.isBlankChar = false := by
      rw [hlist]
      exact hc
    have hclause : m.rest = clause w ((listed ts ++ [' ']) ++ ['\x7b']) := by
      rw [hm, listClause, if_neg (by simpa using hnil), clause, clause]
      simp
    obtain ⟨m', ms, hfinds, hkeeps, -⟩ :=
      exists_finds_clause (s := .bases) hname hblack (by decide) hw hexact hclause
    refine ⟨m', ms, hfinds.opt, ?_⟩
    rw [keptList, if_neg (by simpa using hnil)]
    exact hkeeps

/-- The last clause of a header: its list where it follows, and nothing where no clause does. -/
theorem exists_run_listClause {w : String} {ts : List (List Char)} {m : Spot}
    (hw : BeginsBlack w) (hbrace : w.toList.head? ≠ some '\x7b') (hts : ∀ t ∈ ts, IsType t)
    (hexact : m.Exact) :
    ∃ r, (opt (keptClause w .bases (noneOf "\x7b") (noneOf "\x7b"))).run
        (fun m => some (.done m)) m = some r ∧
      (m.rest = listClause w ts ++ " \x7b".toList → r.part? .bases = keptList ts) ∧
      (¬ GoesOnWith w m.rest → r.part? .bases = none) := by
  -- the clause is the whole pattern, so what it keeps is all that is kept
  have hpart : ∀ {m' : Spot} {ms : List (Slot × Spot)} {kept : Option (List Char)},
      Finds (opt (keptClause w .bases (noneOf "\x7b") (noneOf "\x7b"))) m m' ms →
      Keeps .bases kept ms →
      (opt (keptClause w .bases (noneOf "\x7b") (noneOf "\x7b"))).run
        (fun m => some (.done m)) m = some ⟨m', ms⟩ ∧
      (Match.mk m' ms).part? .bases = kept := by
    intro m' ms kept hfinds hkeeps
    refine ⟨?_, hkeeps.part? (u := []) (v := []) (by simp) (by simp) (by simp)⟩
    rw [hfinds (k := fun m => some (.done m)) rfl]
    simp [Match.after, Match.done]
  obtain ⟨r, hr⟩ := Option.isSome_iff_exists.mp
    (total_opt (keptClause w .bases (noneOf "\x7b") (noneOf "\x7b"))
      (k := fun m => some (.done m)) (fun _ => rfl) m)
  refine ⟨r, hr, ?_, ?_⟩
  · intro hm
    obtain ⟨m', ms, hfinds, hkeeps⟩ := exists_finds_listClause hw hts hexact hbrace hm
    obtain ⟨hrun, hkept⟩ := hpart hfinds hkeeps
    obtain rfl := Option.some.inj (hrun.symm.trans hr)
    exact hkept
  · intro hnone
    obtain ⟨hrun, hkept⟩ := hpart (finds_clause_nothing hnone) .nothing
    obtain rfl := Option.some.inj (hrun.symm.trans hr)
    exact hkept

/-! ### Words -/

theorem mayBeWord_wordIf (present : Bool) (w : String) : MayBeWord w (wordIf present w) := by
  cases present with
  | false => exact .inl rfl
  | true => exact .inr (isWord_space w)

theorem any_wordMarks (s s' : Slot) (m : Spot) (present : Bool) (w : String) (rest : List Char) :
    (wordMarks s m (wordIf present w) rest).any (fun mark => decide (mark.1 = s')) =
      (decide (s = s') && present) := by
  cases present with
  | false => simp [wordMarks, wordIf]
  | true => simp [wordMarks, wordIf]

/-- What stands behind a name in a header: a clause or the curly bracket. -/
theorem follows_listClause {w : String} (hw : BeginsBlack w) (hangle : w.toList.head? ≠ some '<')
    (ts : List (List Char)) : Follows (listClause w ts ++ " \x7b".toList) := by
  by_cases hnil : ts.isEmpty = true
  · rw [listClause, if_pos hnil]
    exact ⟨'\x7b', [], rfl, by decide, by decide⟩
  · rw [BeginsBlack] at hw
    cases hlist : w.toList with
    | nil =>
      rw [hlist] at hw
      cases hw
    | cons c v =>
      rw [hlist] at hw hangle
      refine ⟨c, v ++ ' ' :: (listed ts ++ " \x7b".toList), ?_, (Bool.not_eq_true' _).mp hw, ?_⟩
      · rw [listClause, if_neg hnil, clause, hlist]
        simp
      · rintro rfl
        exact hangle rfl

end CodeAtlas.Brace
