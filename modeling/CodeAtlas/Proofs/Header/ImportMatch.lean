/-
Where an import statement is cut.

The only quotes of an import statement are those around its module. So however the patterns are
matched, the module is what stands between the two, and what stands in front of them decides which
pattern it is: nothing but `import` itself, or a clause with `from` behind it. A clause without
blanks at its ends, between single spaces, is found as a whole, also if one of its names is `type`
or `from` (`match?_importFrom`).
-/
import CodeAtlas.Header.Brace.Import
import CodeAtlas.Proofs.Pattern.Forced
import CodeAtlas.Proofs.Text.Trim

set_option autoImplicit false

namespace CodeAtlas.Brace

open Pattern

/-! ## Quotes -/

/-- The quotes around modules. -/
def isModuleQuote (c : Char) : Bool := c = '\'' || c = '"'

theorem isQuote_of_isModuleQuote {c : Char} (h : isModuleQuote c = true) :
    Quoting.isQuote c = true := by
  rw [isModuleQuote, Bool.or_eq_true] at h
  rw [Quoting.isQuote, Bool.or_comm (decide (c = '"')), Bool.or_eq_true_iff.mpr h, Bool.true_or]

/-- A text between two quotes of a kind, and what follows it: there are no other quotes. -/
structure Quoted where
  quote : Char
  module : List Char
  behind : List Char
  isQuote : isModuleQuote quote = true
  named : module ≠ []
  noQuote : ∀ c ∈ module ++ behind, isModuleQuote c = false

namespace Quoted

def text (x : Quoted) : List Char := x.quote :: (x.module ++ x.quote :: x.behind)

end Quoted

variable {x : Quoted} {a a' b' m' t u v : List Char} {q q' : Char}

/-- There is one way to find two quotes in the text. -/
theorem Quoted.eq_of_append (ha : ∀ c ∈ a, isModuleQuote c = false) (hq : isModuleQuote q = true)
    (hq' : isModuleQuote q' = true) (hm' : ∀ c ∈ m', isModuleQuote c = false)
    (h : a ++ x.text = a' ++ q :: (m' ++ q' :: b')) : a' = a ∧ m' = x.module := by
  have hnone : ∀ {l : List Char}, (∀ c ∈ l, isModuleQuote c = false) →
      l.countP isModuleQuote = 0 := by
    intro l hl
    rw [List.countP_eq_zero]
    intro c hc
    rw [hl c hc]
    exact Bool.false_ne_true
  have hstop : ∀ {l r : List Char} {c : Char}, (∀ c ∈ l, isModuleQuote c = false) →
      isModuleQuote c = true → (l ++ c :: r).takeWhile (fun c => !isModuleQuote c) = l := by
    intro l r c hl hc
    rw [List.takeWhile_append_of_pos fun d hd => by rw [hl d hd]; rfl,
      List.takeWhile_cons_of_neg (by rw [hc]; decide), List.append_nil]
  have hmodule : ∀ c ∈ x.module, isModuleQuote c = false := fun c hc =>
    x.noQuote c (List.mem_append_left _ hc)
  have ha' : ∀ c ∈ a', isModuleQuote c = false := by
    -- the two quotes that are found are all that there are
    have hcount := congrArg (List.countP isModuleQuote) h
    have hbehind := hnone fun c hc => x.noQuote c (List.mem_append_right _ hc)
    simp only [text, List.countP_append, List.countP_cons, hnone ha, hnone hmodule, hnone hm',
      hbehind, x.isQuote, hq, hq', if_true] at hcount
    have hzero : a'.countP isModuleQuote = 0 := by omega
    intro c hc
    exact Bool.eq_false_iff.mpr (List.countP_eq_zero.mp hzero c hc)
  have hfront : a' = a := by
    rw [← hstop ha' hq, ← h, text, hstop ha x.isQuote]
  rw [hfront] at h
  have hrest := (List.cons.inj (List.append_cancel_left h)).2
  refine ⟨hfront, ?_⟩
  rw [← hstop hm' hq', ← hrest, hstop hmodule x.isQuote]

/-! ## Matches -/

theorem noneOf_quotes (c : Char) : noneOf "'\"" c = !isModuleQuote c := by
  by_cases h : c = '\'' <;> by_cases h' : c = '"' <;> simp [noneOf, isModuleQuote, h, h']

theorem quotedModule_eq : quotedModule =
    one isModuleQuote ++ keep .module (some1 (noneOf "'\"")) ++ one isModuleQuote := rfl

/-- The module stands between two quotes. -/
theorem exists_of_quotedModule {m z : Spot} {ms : List (Slot × Spot)}
    (h : Matches quotedModule m z ms) : ∃ c w d s, isModuleQuote c = true ∧
      isModuleQuote d = true ∧ (∀ e ∈ w, isModuleQuote e = false) ∧
      m.rest = c :: (w ++ d :: z.rest) ∧ s.rest = w ++ d :: z.rest ∧
      ms = [(.module, s), (.module, s.behind w (d :: z.rest))] ∧ (m.Exact → s.Exact) := by
  rw [quotedModule_eq] at h
  obtain ⟨m₂, ms₂, ms₃, hpair, hclose, rfl⟩ := matches_append_iff.mp h
  obtain ⟨m₁, ms₁, ms₄, hopen, hkeep, rfl⟩ := matches_append_iff.mp hpair
  obtain ⟨ms', hmodule, rfl⟩ := hkeep.exists_of_keep
  obtain rfl := hmodule.marks_eq_nil rfl
  have havoids : (some1 (noneOf "'\"")).Avoids isModuleQuote := by
    have hnone : ∀ e, noneOf "'\"" e = true → isModuleQuote e = false := by
      intro e he
      rwa [noneOf_quotes, Bool.not_eq_true'] at he
    exact ⟨hnone, hnone⟩
  -- what is kept is free of quotes, and both of its neighbours are quotes
  obtain ⟨w, hw, hbehind, hquotes⟩ := hmodule.avoids havoids
  have hexact := hopen.exact
  cases hopen with
  | one hc hrest =>
    cases hclose with
    | @one _ d rest _ hd hrest' =>
      rw [hrest'] at hw hbehind
      exact ⟨_, w, d, _, hc, hd, hquotes, by rw [hrest]; exact congrArg _ hw, hw,
        by rw [hbehind]; rfl, hexact⟩

/-- A match that ends in `from` and a module ends in what stands between the only quotes. -/
theorem exists_of_fromModule {p : Pattern} {m z : Spot} {ms : List (Slot × Spot)}
    (h : Matches (p ++ word "from" ++ quotedModule) m z ms) (hm : m.rest = a ++ x.text)
    (ha : ∀ c ∈ a, isModuleQuote c = false) : ∃ m₁ ms₁ y s d, Matches p m m₁ ms₁ ∧
      IsWord "from" y ∧ m₁.rest = y ++ x.text ∧ s.rest = x.module ++ d :: z.rest ∧
      ms = ms₁ ++ [(.module, s), (.module, s.behind x.module (d :: z.rest))] ∧
      (m.Exact → s.Exact) := by
  obtain ⟨m₂, ms₂, ms₃, hfront, hmodule, rfl⟩ := matches_append_iff.mp h
  obtain ⟨m₁, y, hp, hy, hrest⟩ := hfront.snoc_word
  obtain ⟨v, hv, -⟩ := hp.exists_behind
  obtain ⟨c, w, d, s, hc, hd, hw, hrest', hs, rfl, hexact⟩ := exists_of_quotedModule hmodule
  have hsame : a ++ x.text = (v ++ y) ++ c :: (w ++ d :: z.rest) := by
    rw [← hm, hv, hrest, hrest', List.append_assoc]
  obtain ⟨hbefore, rfl⟩ := x.eq_of_append ha hc hd hw hsame
  rw [← hbefore] at hsame
  have htext := List.append_cancel_left hsame
  refine ⟨m₁, ms₂, y, s, d, hp, hy, ?_, hs, rfl, fun hm => hexact (hfront.exact hm)⟩
  rw [hrest, hrest', htext]

theorem matches_few1 {p : Char → Bool} {m : Spot} (hm : m.rest = u ++ v) (hne : u ≠ [])
    (hu : ∀ c ∈ u, p c = true) : Matches (few1 p) m (m.behind u v) [] := by
  obtain ⟨c, w, rfl⟩ := List.exists_cons_of_ne_nil hne
  obtain ⟨hc, hw⟩ := List.forall_mem_cons.mp hu
  have hmore : Matches (few p) (m.behind [c] (w ++ v)) ((m.behind [c] (w ++ v)).behind w v) [] :=
    .few hw rfl
  rw [← Spot.behind_cons] at hmore
  exact (Matches.one hc hm).append hmore

/-- A text between two quotes is found as a whole, whatever follows the second one. -/
theorem finds_quoted {m : Spot} {q : Char} {w rest : List Char} (hq : isModuleQuote q = true)
    (hne : w ≠ []) (hw : ∀ c ∈ w, isModuleQuote c = false) (hm : m.rest = q :: (w ++ q :: rest))
    (slot : Slot) :
    let s := m.behind [q] (w ++ q :: rest)
    Finds (one isModuleQuote ++ keep slot (some1 (noneOf "'\"")) ++ one isModuleQuote) m
      ((s.behind w (q :: rest)).behind [q] rest)
      [(slot, s), (slot, s.behind w (q :: rest))] := by
  intro s
  have hchars : ∀ c ∈ w, noneOf "'\"" c = true := by
    intro c hc
    rw [noneOf_quotes, hw c hc]
    rfl
  have hends : (q :: rest).head?.any (noneOf "'\"") = false := by
    rw [List.head?_cons, Option.any_some, noneOf_quotes, hq]
    rfl
  have hopen : Finds (one isModuleQuote) m s [] := finds_one hm hq
  have hinside := (finds_some1 (m := s) hne hchars rfl hends).keep slot
  have hclose : Finds (one isModuleQuote) (s.behind w (q :: rest)) _ [] := finds_one rfl hq
  exact (hopen.append hinside).append hclose

theorem finds_quotedModule {m : Spot} (hm : m.rest = x.text) : ∃ m' s,
    Finds quotedModule m m' [(.module, s), (.module, s.behind x.module (x.quote :: x.behind))] ∧
      s.rest = x.module ++ x.quote :: x.behind ∧ (m.Exact → s.Exact) :=
  ⟨_, _, finds_quoted x.isQuote x.named (fun c hc => x.noQuote c (List.mem_append_left _ hc)) hm
    .module, rfl, (Matches.one x.isQuote hm).exact⟩

/-! ## Statements -/

/-- What stands between `import` and `from`. -/
structure IsClause (u : List Char) : Prop where
  ne_nil : u ≠ []
  trimmed : Text.trim u = u
  onLine : ∀ c ∈ u, inLine c = true
  noQuote : ∀ c ∈ u, isModuleQuote c = false
  notTyped : ∀ y, IsWord "type" y → ¬ y <+: u

/-- A statement, with what stands in front of the module. -/
def importText (front : List Char) (x : Quoted) : List Char := "import ".toList ++ (front ++ x.text)

/-- What stands in front of the module where names are imported. -/
def fromFront (u : List Char) : List Char := u ++ " from ".toList

theorem IsClause.head? (hu : IsClause u) (v : List Char) :
    (u ++ v).head?.any Text.isBlankChar = false := by
  have hblack := Text.head?_trimStart_any u
  rw [← Text.head?_trim, hu.trimmed] at hblack
  obtain ⟨c, w, rfl⟩ := List.exists_cons_of_ne_nil hu.ne_nil
  exact hblack

theorem Quoted.head? (x : Quoted) : x.text.head?.any Text.isBlankChar = false := by
  have hquote := x.isQuote
  simp only [isModuleQuote, Bool.or_eq_true, decide_eq_true_eq] at hquote
  rw [text]
  rcases hquote with h | h <;> rw [h] <;> rfl

theorem isSome_importFrom (hu : IsClause u) (x : Quoted) :
    (importFrom.match? (importText (fromFront u) x)).isSome = true := by
  have htext : importText (fromFront u) x =
      "import ".toList ++ (u ++ (" from ".toList ++ x.text)) := by
    unfold importText fromFront
    rw [List.append_assoc]
  rw [htext, match?_eq_run]
  generalize hstart : Spot.start _ = m
  have hm : m.rest = "import ".toList ++ (u ++ (" from ".toList ++ x.text)) := by
    rw [← hstart]
    rfl
  let m₁ := m.behind "import ".toList (u ++ (" from ".toList ++ x.text))
  let m₂ := m₁.behind u (" from ".toList ++ x.text)
  let m₃ := m₂.behind [' '] ("from ".toList ++ x.text)
  have hword : Finds (word "import") m m₁ [] := finds_word (isWord_space "import") hm (hu.head? _)
  have hclause : Matches (few1 inLine) m₁ m₂ [] := matches_few1 rfl hu.ne_nil hu.onLine
  have hgap : Finds gap m₂ m₃ [] := finds_gap (List.cons_ne_nil ' ' []) isBlankChar_space rfl rfl
  have hfrom : Finds (word "from") m₃ (m₃.behind "from ".toList x.text) [] :=
    finds_word (isWord_space "from") rfl x.head?
  obtain ⟨m', s, hmodule, -⟩ := finds_quotedModule (m := m₃.behind "from ".toList x.text) rfl
  have hfront := (hword.matches.append (matches_opt_nothing (word "type") m₁)).append
    (hclause.keep .clause)
  -- the run may find another match, but it finds one
  have hmatch := ((hfront.append hgap.matches).append hfrom.matches).append hmodule.matches
  exact hmatch.isSome_run rfl

theorem importFrom_eq : importFrom = word "import" ++ opt (word "type") ++
    keep .clause (few1 inLine) ++ gap ++ word "from" ++ quotedModule := rfl

/-- A text in blanks that is as short as what trimming leaves of it is trimmed. -/
theorem eq_of_blanks {g g' t : List Char} (hu : Text.trim u = u) (hne : g ≠ []) (hne' : g' ≠ [])
    (hg : Text.isBlank g = true) (hg' : Text.isBlank g' = true)
    (h : ' ' :: (u ++ [' ']) = g ++ (t ++ g')) : t = u := by
  have htrim : Text.trim t = u := by
    have hall := congrArg Text.trim h
    rw [Text.trim_append_of_isBlank hg, Text.trim_append_of_isBlank_right hg'] at hall
    rw [← hall, ← List.singleton_append, Text.trim_append_of_isBlank rfl,
      Text.trim_append_of_isBlank_right rfl, hu]
  obtain ⟨a, b, -, -, hsplit⟩ := Text.exists_trim t
  have hlength := congrArg List.length h
  have hpos := List.length_pos_of_ne_nil hne
  have hpos' := List.length_pos_of_ne_nil hne'
  have hparts := congrArg List.length hsplit
  simp only [List.length_cons, List.length_append, List.length_nil, htrim] at hlength hparts
  rw [htrim, List.eq_nil_of_length_eq_zero (l := a) (by omega),
    List.eq_nil_of_length_eq_zero (l := b) (by omega), List.append_nil] at hsplit
  exact hsplit

/-- What stands in front of the module is read in only one way. -/
theorem eq_clause {i t w g y : List Char} (hu : IsClause u) (hi : IsWord "import" i)
    (ht : MayBeWord "type" t) (hne : g ≠ []) (hg : ∀ c ∈ g, Text.isBlankChar c = true)
    (hy : IsWord "from" y)
    (h : "import ".toList ++ fromFront u = i ++ (t ++ (w ++ (g ++ y)))) : w = u := by
  obtain ⟨b, hbne, hb, rfl⟩ := hi
  obtain ⟨b', hbne', hb', rfl⟩ := hy
  have hend : ∀ s b : List Char, Text.isBlank b = true →
      Text.trimEnd (s ++ ("from".toList ++ b)) = s ++ "from".toList := by
    intro s b hb
    have hm := Text.trimEnd_append_cons (c := 'm') rfl (s ++ "fro".toList) b
    have hnil := Text.trimEnd_append_of_isBlank hb []
    rw [List.nil_append] at hnil
    rw [hnil, List.append_assoc, List.append_assoc] at hm
    exact hm
  have hleft : "import ".toList ++ fromFront u =
      "import".toList ++ ' ' :: (u ++ [' ']) ++ ("from".toList ++ [' ']) := by
    unfold fromFront
    rw [List.append_assoc, List.cons_append, List.append_assoc]
    rfl
  have hright : "import".toList ++ b ++ (t ++ (w ++ (g ++ ("from".toList ++ b')))) =
      "import".toList ++ (b ++ (t ++ w ++ g)) ++ ("from".toList ++ b') := by
    simp only [List.append_assoc]
  -- `from` ends both texts, blanks apart
  have hends : Text.trimEnd _ = Text.trimEnd _ := congrArg Text.trimEnd (hleft ▸ hright ▸ h)
  rw [hend _ _ rfl, hend _ _ (List.all_eq_true.mpr hb')] at hends
  have htext : t ++ w = u := eq_of_blanks hu.trimmed hbne hne (List.all_eq_true.mpr hb)
    (List.all_eq_true.mpr hg) (List.append_cancel_left (List.append_cancel_right hends))
  rcases ht with rfl | ht
  · exact htext
  · exact absurd ⟨w, htext⟩ (hu.notTyped t ht)

/-- The clause and the module are what stands between `import`, `from` and the quotes. -/
theorem match?_importFrom (hu : IsClause u) (x : Quoted) : ∃ r,
    importFrom.match? (importText (fromFront u) x) = some r ∧ r.part .clause = u ∧
      r.part .module = x.module := by
  obtain ⟨r, hr⟩ := Option.isSome_iff_exists.mp (isSome_importFrom hu x)
  have hmatch := matches_of_match? hr
  rw [importFrom_eq] at hmatch
  have hstart : (Spot.start (importText (fromFront u) x)).rest =
      "import ".toList ++ fromFront u ++ x.text := by
    unfold importText
    exact (List.append_assoc _ _ _).symm
  have hquotes : ∀ c ∈ "import ".toList ++ fromFront u, isModuleQuote c = false := by
    have hwords : ∀ w ∈ ["import ", " from "], ∀ c ∈ w.toList, isModuleQuote c = false := by decide
    intro c hc
    unfold fromFront at hc
    simp only [List.mem_append] at hc
    rcases hc with hc | hc | hc
    · exact hwords _ (by simp) c hc
    · exact hu.noQuote c hc
    · exact hwords _ (by simp) c hc
  obtain ⟨m₄, ms₄, y, s, d, hfront, hy, hbehind, hs, hmarks, hexact⟩ :=
    exists_of_fromModule hmatch hstart hquotes
  -- the match is taken apart from behind; that its clause is `u` follows from the whole text
  obtain ⟨m₃, ms₃, ms₃', hclause, hgap, rfl⟩ := matches_append_iff.mp hfront
  obtain ⟨g, hne, hg, hgrest, rfl⟩ := hgap.of_gap
  obtain ⟨m₂, ms₂, ms₂', htype, hkeep, rfl⟩ := matches_append_iff.mp hclause
  obtain ⟨m₁, t, hword, ht, htrest⟩ := htype.snoc_opt_word
  obtain ⟨i, hi, hirest, rfl⟩ := hword.of_word
  obtain ⟨ms', hfew, rfl⟩ := hkeep.exists_of_keep
  obtain rfl := hfew.marks_eq_nil rfl
  obtain ⟨w, hw, hm₃⟩ := hfew.exists_behind
  have hwhole : "import ".toList ++ fromFront u ++ x.text =
      i ++ (t ++ (w ++ (g ++ y))) ++ x.text := by
    rw [← hstart, hirest, htrest, hw, hgrest, hbehind]
    simp only [List.append_assoc]
  have hsame := List.append_cancel_right hwhole
  obtain rfl := eq_clause hu hi ht hne hg hy hsame
  rw [hm₃] at hmarks
  refine ⟨r, hr, ?_, ?_⟩
  · refine part_of_marks (a := m₂) (b := []) ?_ List.not_mem_nil (htype.exact rfl) hw
    rw [hmarks]
    exact List.prefix_append _ _
  · refine part_of_marks (a := s) (b := [(.clause, m₂), (.clause, m₂.behind w m₃.rest)]) ?_
      (by simp) (hexact rfl) hs
    rw [hmarks]
    exact List.prefix_rfl

/-- Without a clause there is no `from`. -/
theorem match?_importFrom_bare (x : Quoted) : importFrom.match? (importText [] x) = none := by
  refine Option.eq_none_iff_forall_ne_some.mpr fun r hr => ?_
  have hmatch := matches_of_match? hr
  rw [importFrom_eq] at hmatch
  have hstart : (Spot.start (importText [] x)).rest = "import ".toList ++ x.text := rfl
  obtain ⟨m, ms, y, s, d, hp, ⟨b, -, -, rfl⟩, hbehind, -⟩ :=
    exists_of_fromModule hmatch hstart (by decide)
  obtain ⟨v, hv, -⟩ := hp.exists_behind
  have hwhole : "import ".toList ++ x.text = v ++ ("from".toList ++ b) ++ x.text := by
    rw [← hstart, hv, hbehind]
    simp only [List.append_assoc]
  have hsame := List.append_cancel_right hwhole
  have hf : 'f' ∈ "import ".toList := by
    rw [hsame]
    exact List.mem_append_right v (List.mem_append_left b (by decide))
  revert hf
  decide

theorem match?_importBare (x : Quoted) : ∃ r,
    importBare.match? (importText [] x) = some r ∧ r.part .module = x.module := by
  let m := (Spot.start (importText [] x)).behind "import ".toList x.text
  have hword : Finds (word "import") (.start (importText [] x)) m [] :=
    finds_word (isWord_space "import") rfl x.head?
  obtain ⟨m', s, hmodule, hs, hexact⟩ := finds_quotedModule (m := m) rfl
  refine ⟨_, (hword.append hmodule).match?, ?_⟩
  exact part_of_marks (b := []) List.prefix_rfl List.not_mem_nil
    (hexact (hword.matches.exact rfl)) hs

/-- A text without quotes is no complete statement. -/
theorem isWholeImport_of_noQuote (h : ∀ c ∈ t, isModuleQuote c = false) :
    isWholeImport t = false := by
  have hnone : ∀ p : Pattern, (p ++ quotedModule).fits t = false := by
    intro p
    refine Bool.eq_false_iff.mpr fun hfits => ?_
    obtain ⟨r, hr⟩ := Option.isSome_iff_exists.mp hfits
    obtain ⟨m, ms, ms', hp, hmodule, -⟩ := matches_append_iff.mp (matches_of_match? hr)
    obtain ⟨v, hv, -⟩ := hp.exists_behind
    obtain ⟨c, w, d, s, hc, -, -, hrest, -⟩ := exists_of_quotedModule hmodule
    have hmem : c ∈ (Spot.start t).rest := by
      rw [hv, hrest]
      exact List.mem_append_right v List.mem_cons_self
    rw [h c hmem] at hc
    cases hc
  have hfrom : importFrom.fits t = false := by
    rw [importFrom_eq]
    exact hnone _
  rw [isWholeImport, hfrom]
  exact hnone (word "import")

theorem isWholeImport_fromFront (hu : IsClause u) (x : Quoted) :
    isWholeImport (importText (fromFront u) x) = true := by
  obtain ⟨r, hr, -⟩ := match?_importFrom hu x
  rw [isWholeImport, fits, hr]
  rfl

/-- An assignment of `require` begins otherwise. -/
theorem match?_requireCall (t : List Char) : requireCall.match? ("import ".toList ++ t) = none := by
  rw [match?_eq_run]
  exact run_eq_none_of_head? (c := 'i') rfl (by decide) rfl _

/-! ## Joining lines -/

theorem joinImport_of_isWhole (h : isWholeImport t = true) (n : Nat) (ls : List Line) :
    joinImport t n ls = t := by
  cases ls with
  | nil => rfl
  | cons l ls => rw [joinImport, h, Bool.true_or, if_pos rfl]

theorem intercalate_space (u : List Char) (ts : List (List Char)) :
    [' '].intercalate (u :: ts) = u ++ ts.flatMap (' ' :: ·) := by
  induction ts generalizing u with
  | nil => rw [List.intercalate_singleton, List.flatMap_nil, List.append_nil]
  | cons t ts ih =>
    rw [List.intercalate_cons_cons, ih, List.flatMap_cons, List.append_assoc]
    rfl

/-- Lines are joined up to the one that brings the quotes. -/
theorem joinImport_lines {last : Line} {mid : List Line} {y z joined : List Char} {n : Nat}
    (hjoined : u ++ (mid.map Text.trim ++ [y]).flatMap (' ' :: ·) = joined)
    (hquotes : ∀ c ∈ joined, isModuleQuote c = false) (hwhole : isWholeImport (joined ++ z) = true)
    (hlast : Text.trim last = y ++ z) (hfits : n + mid.length < maxLookahead) (after : List Line) :
    joinImport u n (mid ++ last :: after) = joined ++ z := by
  have hopen : isWholeImport u = false :=
    isWholeImport_of_noQuote fun c hc => hquotes c (hjoined ▸ List.mem_append_left _ hc)
  have hn : decide (maxLookahead ≤ n) = false := decide_eq_false (by omega)
  -- without a quote the statement is not whole, so the next line is joined
  induction mid generalizing u n with
  | nil =>
    have hall : u ++ ' ' :: Text.trim last = joined ++ z := by
      rw [← hjoined, hlast]
      simp
    rw [List.nil_append, joinImport, hopen, hn, Bool.or_self, if_neg Bool.false_ne_true, hall]
    exact joinImport_of_isWhole hwhole _ _
  | cons l mid ih =>
    rw [List.length_cons] at hfits
    have hnext : u ++ ' ' :: Text.trim l ++ (mid.map Text.trim ++ [y]).flatMap (' ' :: ·) =
        joined := by
      rw [← hjoined]
      simp
    have hmore : isWholeImport (u ++ ' ' :: Text.trim l) = false :=
      isWholeImport_of_noQuote fun c hc => hquotes c (hnext ▸ List.mem_append_left _ hc)
    rw [List.cons_append, joinImport, hopen, hn, Bool.or_self, if_neg Bool.false_ne_true]
    exact ih hnext (by omega) hmore (decide_eq_false (by omega))

end CodeAtlas.Brace
