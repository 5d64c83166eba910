/-
Classes with a list of bases.

The header of a class is given by its parts: the name, type parameters in square brackets, and a
list in round ones (`ClassLine`). The pattern looks for the first closing bracket of each kind and
knows nothing of nesting. So the header is read as it was written if neither list holds its own
closing bracket; a list with a call or a tuple in it is cut at its first closing bracket, and the
class is lost, except where a colon happens to follow there (`ClassLine.Reads`).
-/
import CodeAtlas.Header.Indent.Class
import CodeAtlas.Proofs.Nesting.Cutting
import CodeAtlas.Proofs.Pattern.Extend
import CodeAtlas.Proofs.Pattern.Forced

set_option autoImplicit false

namespace CodeAtlas.Indent

open Pattern

/-! ## Headers as they are written -/

/-- The header of a class on one line, and what stands behind its colon. -/
structure ClassLine where
  name : List Char
  params : Option (List Char)
  items : List (List Char)
  behind : List Char

/-- The head of a class with the list, as it is told from the pieces of the list. -/
def headOf (name : List Char) (pieces : List (List Char)) (list : List Char) : ClassHead :=
  let bases := pieces.filter fun b => !b.contains '='
  { name := textOf name, base := bases.head?.map textOf, interfaces := (bases.drop 1).map textOf,
    isAbstract := bases.any (fun b => textOf b == "ABC" || Text.ends ".ABC" b) ||
      Text.has "ABCMeta" list,
    exported := !Text.starts "_" name, defaultExport := false }

namespace ClassLine

variable (x : ClassLine)

/-- What stands between the round brackets. -/
def list : List Char := [','].intercalate x.items

/-- The type parameters with their brackets. -/
def typeText : List Char := (x.params.map fun p => '[' :: (p ++ [']'])).getD []

def fromList : List Char := '(' :: (x.list ++ ')' :: ':' :: x.behind)

def text : List Char := "class ".toList ++ (x.name ++ (x.typeText ++ x.fromList))

/-- What the header says. -/
def head : ClassHead := headOf x.name (x.items.map Text.trim) x.list

/-- The items stand between commas, with any blanks around them. -/
structure IsWritten : Prop where
  isName : IsNameOf (fun c => c.isAlpha || c = '_') Text.isWordChar x.name
  isItems : ∀ t ∈ x.items, IsPiece (Text.trim t)

/-- What the header is taken for: nothing is lost up to a list with its own closing bracket
inside, and behind such a bracket the header has to go on as if the list ended there. -/
structure Reads (answer : Option Construct) : Prop where
  flat : (∀ p ∈ x.params, ']' ∉ p) → ')' ∉ x.list → answer = some (.classHead x.head)
  cutList : (∀ p ∈ x.params, ']' ∉ p) → ∀ u v, x.list = u ++ ')' :: v → ')' ∉ u →
    answer = if (Text.trimStart v).head? = some ':' then
      some (.classHead (headOf x.name (splitOuter ',' u) u)) else none
  cutParams : ∀ p ∈ x.params, ∀ u v, p = u ++ ']' :: v → ']' ∉ u →
    (∀ c ∈ (Text.trimStart v).head?, c ≠ '(' ∧ c ≠ ':') → answer = none

end ClassLine

/-! ## The header as it is read -/

/-- The list in round brackets. -/
def baseList : Pattern := opt (lit "(" ++ keep .bases (many (noneOf ")")) ++ lit ")")

/-- The colon behind the lists. -/
def colon : Pattern := blanks ++ lit ":"

/-- What may follow the type parameters. -/
def fromBases : Pattern := (blanks ++ baseList) ++ colon

/-- What may follow the name. -/
def fromParams : Pattern := (blanks ++ typeParams) ++ fromBases

theorem classHeader_eq : classHeader = (word "class" ++ keep .name name) ++ fromParams := rfl

section

variable {c : Char} {m : Spot} {name u v rest : List Char}

theorem noneOf_of_notMem {s : String} (hs : s.toList = [c]) (hu : c ∉ u) :
    ∀ d ∈ u, noneOf s d = true := by
  intro d hd
  have hne : d ≠ c := by
    rintro rfl
    exact hu hd
  simp [noneOf, hs, hne]

/-- Nothing that begins with the bracket begins with other characters. -/
theorem neverFirst_bracket {s : String} (hs : s.toList = [c]) (b : Pattern) :
    NeverFirst (noneOf s) (lit s ++ b) := by
  refine (neverFirst_lit ?_).before ?_ b
  · simp [noneOf, hs]
  · show s.toList.isEmpty = false
    rw [hs]
    rfl

/-- Blanks in front of what begins with none are passed. -/
theorem exists_forces_blanks {b : Pattern} (hb : NeverFirst Text.isBlankChar b)
    (hempty : b.mayBeEmpty = false) (m : Spot) :
    ∃ m', m'.rest = Text.trimStart m.rest ∧ Forces blanks b m m' [] :=
  ⟨_, rfl, forces_many List.takeWhile_append_dropWhile.symm
    (List.all_eq_true.mp List.all_takeWhile) (Text.head?_trimStart_any m.rest) hb hempty⟩

theorem run_colon (m : Spot) :
    ((Text.trimStart m.rest).head? = some ':' → ∃ stop, colon.run done m = some ⟨stop, []⟩) ∧
      ((Text.trimStart m.rest).head? ≠ some ':' → colon.run done m = none) := by
  obtain ⟨m', hm', hforces⟩ := exists_forces_blanks
    (neverFirst_lit (v := ":") (q := Text.isBlankChar) (by decide)) rfl m
  have hrun : colon.run done m = (lit ":").run done m' := by
    rw [colon, hforces, map_after_nil]
  rw [hrun, ← hm']
  constructor
  · intro hhead
    obtain ⟨rest, hrest⟩ := List.head?_eq_some_iff.mp hhead
    rw [run_lit (s := ":") hrest]
    exact ⟨_, rfl⟩
  · intro hhead
    refine run_lit_of_none (Option.eq_none_iff_forall_ne_some.mpr fun rest hrest => hhead ?_)
    rw [Text.after?_eq_some_iff.mp hrest]
    rfl

/-- The list is read up to its first closing bracket, behind which the colon has to follow. -/
theorem exists_run_list (hexact : m.Exact) (hm : m.rest = '(' :: (u ++ ')' :: rest))
    (hu : ')' ∉ u) : ∃ m₁, m₁.Exact ∧ m₁.rest = u ++ ')' :: rest ∧
      ((Text.trimStart rest).head? = some ':' →
        ∃ stop, fromBases.run done m =
          some ⟨stop, [(.bases, m₁), (.bases, m₁.behind u (')' :: rest))]⟩) ∧
      ((Text.trimStart rest).head? ≠ some ':' →
        fromBases.run done m = none) := by
  let m₁ := m.behind ['('] (u ++ ')' :: rest)
  let m₂ := m₁.behind u (')' :: rest)
  let m₃ := m₂.behind [')'] rest
  have hopen : Forces (lit "(") (keep .bases (many (noneOf ")")) ++ (lit ")" ++ colon)) m m₁ [] :=
    forces_lit hm
  have hbracket : NeverFirst (noneOf ")") (lit ")" ++ colon) := neverFirst_bracket rfl colon
  have hinner : Forces (many (noneOf ")")) (mark .bases ++ (lit ")" ++ colon)) m₁ m₂ [] :=
    forces_many rfl (noneOf_of_notMem rfl hu) rfl hbracket rfl
  have hclose : Forces (lit ")") colon m₂ m₃ [] := forces_lit rfl
  -- the list is not left out, since the colon does not stand in its place
  have hlist : Forces baseList colon m m₃ _ := ((hopen.append hinner.keep).append hclose).opt
    fun k => run_eq_none_of_head? (c := '(') (by rw [hm]; rfl) (by decide) rfl k
  have hblanks : Forces blanks (baseList ++ colon) m m [] :=
    forces_many_nothing (by rw [hm]; rfl)
  have hall : ∀ k, fromBases.run k m = (colon.run k m₃).map
      (Match.after [(.bases, m₁), (.bases, m₂)]) := hblanks.append hlist
  refine ⟨m₁, hexact.behind hm, rfl, fun hhead => ?_, fun hhead => ?_⟩
  · obtain ⟨stop, hstop⟩ := (run_colon m₃).1 hhead
    refine ⟨stop, ?_⟩
    rw [hall, hstop]
    rfl
  · rw [hall, (run_colon m₃).2 hhead]
    rfl

/-- Behind the type parameters, only the list or the colon can follow. -/
theorem run_eq_none_of_trimStart
    (h : ∀ c ∈ (Text.trimStart m.rest).head?, c ≠ '(' ∧ c ≠ ':') :
    fromBases.run done m = none := by
  refine Option.eq_none_iff_forall_ne_some.mpr fun r hrun => ?_
  obtain ⟨m', ms, -, hmatch, -, -⟩ := exists_matches_of_run hrun
  obtain ⟨m₂, ms₁, ms₂, hfront, hcolon, -⟩ := matches_append_iff.mp hmatch
  obtain ⟨m₁, ms₃, ms₄, hblanks, hlist, -⟩ := matches_append_iff.mp hfront
  obtain ⟨g, hg, hrest, -⟩ := hblanks.of_blanks
  have hg : Text.isBlank g = true := List.all_eq_true.mpr hg
  -- the list begins with its bracket; without a list the colon is the first
  rcases hlist.of_opt with hlist | ⟨hnothing, -⟩
  · rcases hlist.begins with ⟨-, hempty⟩ | ⟨c, hc, hfirst⟩
    · cases hempty
    · have hopen : c = '(' := by
        by_contra hne
        have hnever := neverFirst_bracket (c := '(') (s := "(") rfl
          (keep .bases (many (noneOf ")")) ++ lit ")")
        have hfalse := hnever c (by simp [noneOf, hne])
        exact Bool.false_ne_true (hfalse.symm.trans hfirst)
      obtain ⟨t, ht⟩ := List.head?_eq_some_iff.mp hc
      rw [hrest, ht, hopen, Text.trimStart_append_of_isBlank hg] at h
      exact (h '(' rfl).1 rfl
  · obtain ⟨m₃, ms₅, ms₆, hblanks', hlit, -⟩ := matches_append_iff.mp hcolon
    obtain ⟨g', hg', hrest', -⟩ := hblanks'.of_blanks
    have hg' : Text.isBlank g' = true := List.all_eq_true.mpr hg'
    rw [hrest, hnothing, hrest', hlit.rest_of_lit, Text.trimStart_append_of_isBlank hg,
      Text.trimStart_append_of_isBlank hg'] at h
    exact (h ':' rfl).2 rfl

end

/-! ## The header as a whole -/

section

variable {x : ClassLine}

theorem neverFirst_fromParams : NeverFirst Text.isWordChar fromParams := by
  have hblanks : NeverFirst Text.isWordChar blanks := neverFirst_blanks fun c hc => by
    refine Bool.eq_false_iff.mpr fun hblank => ?_
    rw [Text.isWordChar_of_isBlankChar hblank] at hc
    cases hc
  have hsign : ∀ s : String, s.toList.head?.any Text.isWordChar = false → s.toList ≠ [] →
      ∀ b, NeverFirst Text.isWordChar (lit s ++ b) := by
    intro s hs hne b
    refine (neverFirst_lit hs).before ?_ b
    show s.toList.isEmpty = false
    rwa [List.isEmpty_eq_false_iff]
  have hparams : NeverFirst Text.isWordChar typeParams := (hsign "[" (by decide) (by decide) _).opt
  have hlist : NeverFirst Text.isWordChar baseList := (hsign "(" (by decide) (by decide) _).opt
  have hcolon : NeverFirst Text.isWordChar colon := hblanks.append (neverFirst_lit (by decide))
  exact (hblanks.append hparams).append ((hblanks.append hlist).append hcolon)

theorem isBlankChar_of_isFirst {c : Char} (hc : (c.isAlpha || c = '_') = true) :
    Text.isBlankChar c = false := by
  have hstart : Text.isNameStart c = true := by rw [Text.isNameStart, hc, Bool.true_or]
  exact Text.isBlankChar_of_isNameChar (Text.isNameChar_of_isNameStart hstart)

theorem neverFirst_name {b : Pattern} : NeverFirst Text.isBlankChar (keep .name name ++ b) := by
  have hone : NeverFirst Text.isBlankChar (one fun c => c.isAlpha || c = '_') := by
    intro c hc
    refine Bool.eq_false_iff.mpr fun hfirst => ?_
    rw [isBlankChar_of_isFirst hfirst] at hc
    cases hc
  have hname : NeverFirst Text.isBlankChar (mark .name ++ name) :=
    NeverFirst.append (fun _ _ => rfl) (hone.before rfl _)
  exact hname.before rfl (mark .name ++ b)

/-- The spot in front of the name. -/
def ClassLine.nameSpot (x : ClassLine) : Spot :=
  (Spot.start x.text).behind "class ".toList (x.name ++ (x.typeText ++ x.fromList))

/-- The spot behind the name. -/
def ClassLine.paramsSpot (x : ClassLine) : Spot :=
  x.nameSpot.behind x.name (x.typeText ++ x.fromList)

theorem exact_nameSpot (x : ClassLine) : x.nameSpot.Exact :=
  Spot.Exact.behind (m := .start x.text) rfl rfl

theorem exact_paramsSpot (x : ClassLine) : x.paramsSpot.Exact := (exact_nameSpot x).behind rfl

/-- The word and the name are found as they are written. -/
theorem forces_front (hx : x.IsWritten) :
    Forces (word "class" ++ keep .name name) fromParams (.start x.text) x.paramsSpot
      [(.name, x.nameSpot), (.name, x.paramsSpot)] := by
  have hblack : (x.name ++ (x.typeText ++ x.fromList)).head?.any Text.isBlankChar = false := by
    obtain ⟨c, u, hname, hc, -⟩ := hx.isName
    rw [hname]
    exact isBlankChar_of_isFirst hc
  have hends : (x.typeText ++ x.fromList).head?.any Text.isWordChar = false := by
    rw [ClassLine.typeText]
    cases x.params with
    | none => exact show Text.isWordChar '(' = false by decide
    | some p => exact show Text.isWordChar '[' = false by decide
  have hword : Forces (word "class") (keep .name name ++ fromParams) (.start x.text)
      x.nameSpot [] :=
    forces_word (isWord_space "class") rfl hblack neverFirst_name rfl
  have hmark : NeverFirst Text.isWordChar (mark .name ++ fromParams) :=
    NeverFirst.append (fun _ _ => rfl) neverFirst_fromParams
  have hname : Forces name (mark .name ++ fromParams) x.nameSpot x.paramsSpot [] :=
    forces_name hx.isName rfl hends hmark rfl
  exact hword.append hname.keep

/-- Type parameters are read up to their first closing bracket. -/
theorem forces_params {m : Spot} {u rest : List Char} (hm : m.rest = '[' :: (u ++ ']' :: rest))
    (hu : ']' ∉ u) : ∃ m', m'.rest = rest ∧ (m.Exact → m'.Exact) ∧
      Forces (blanks ++ typeParams) fromBases m m' [] := by
  let m₁ := m.behind ['['] (u ++ ']' :: rest)
  let m₂ := m₁.behind u (']' :: rest)
  have hopen : Forces (lit "[") (many (noneOf "]") ++ (lit "]" ++ fromBases)) m m₁ [] :=
    forces_lit hm
  have hbracket : NeverFirst (noneOf "]") (lit "]" ++ fromBases) := neverFirst_bracket rfl fromBases
  have hinner : Forces (many (noneOf "]")) (lit "]" ++ fromBases) m₁ m₂ [] :=
    forces_many rfl (noneOf_of_notMem rfl hu) rfl hbracket rfl
  have hclose : Forces (lit "]") fromBases m₂ (m₂.behind [']'] rest) [] := forces_lit rfl
  -- they are not left out, since neither the list nor the colon stands in their place
  have hparams : Forces typeParams fromBases m (m₂.behind [']'] rest) [] :=
    ((hopen.append hinner).append hclose).opt
      fun k => run_eq_none_of_head? (c := '[') (by rw [hm]; rfl) (by decide) rfl k
  have hblanks : Forces blanks (typeParams ++ fromBases) m m [] :=
    forces_many_nothing (by rw [hm]; rfl)
  exact ⟨_, rfl, fun hexact => ((hexact.behind hm).behind rfl).behind rfl, hblanks.append hparams⟩

theorem forces_noParams {m : Spot} {rest : List Char} (hm : m.rest = '(' :: rest) :
    Forces (blanks ++ typeParams) fromBases m m [] := by
  have hparams : Forces typeParams fromBases m m [] := by
    refine forces_opt_nothing fun k => ?_
    exact run_eq_none_of_head? (c := '(') (by rw [hm]; rfl) (by decide) rfl k
  have hblanks : Forces blanks (typeParams ++ fromBases) m m [] :=
    forces_many_nothing (by rw [hm]; rfl)
  exact hblanks.append hparams

theorem rest_paramsSpot {p : List Char} (hp : x.params = some p) :
    x.paramsSpot.rest = '[' :: (p ++ ']' :: x.fromList) := by
  show x.typeText ++ x.fromList = _
  rw [ClassLine.typeText, hp]
  simp

/-- Behind the type parameters, the header is found exactly if the list is. -/
theorem match?_classHeader (hx : x.IsWritten) {m : Spot}
    (hforces : Forces (blanks ++ typeParams) fromBases x.paramsSpot m []) :
    classHeader.match? x.text = (fromBases.run done m).map
      (Match.after [(.name, x.nameSpot), (.name, x.paramsSpot)]) := by
  have hparams : fromParams.run done x.paramsSpot = fromBases.run done m := by
    rw [fromParams, hforces, map_after_nil]
  have hfront := forces_front hx done
  rw [match?_eq_run, classHeader_eq]
  exact hfront.trans (congrArg _ hparams)

/-- The list is read up to its first closing bracket. -/
theorem exists_match? (hx : x.IsWritten) (hparams : ∀ p ∈ x.params, ']' ∉ p)
    {u rest : List Char} (hlist : x.fromList = '(' :: (u ++ ')' :: rest)) (hu : ')' ∉ u) :
    ((Text.trimStart rest).head? = some ':' → ∃ r, classHeader.match? x.text = some r ∧
      r.part .name = x.name ∧ r.part? .bases = some u) ∧
    ((Text.trimStart rest).head? ≠ some ':' → classHeader.match? x.text = none) := by
  obtain ⟨m, hm, hexact, hforces⟩ : ∃ m, m.rest = x.fromList ∧ m.Exact ∧
      Forces (blanks ++ typeParams) fromBases x.paramsSpot m [] := by
    cases hp : x.params with
    | none =>
      have hrest : x.paramsSpot.rest = x.fromList := by
        show x.typeText ++ x.fromList = x.fromList
        rw [ClassLine.typeText, hp]
        rfl
      exact ⟨_, hrest, exact_paramsSpot x, forces_noParams hrest⟩
    | some p =>
      obtain ⟨m, hm, hexact, hforces⟩ := forces_params (rest_paramsSpot hp) (hparams p hp)
      exact ⟨m, hm, hexact (exact_paramsSpot x), hforces⟩
  obtain ⟨m₁, hexact₁, hm₁, hfound, hrefused⟩ := exists_run_list hexact (hm.trans hlist) hu
  rw [match?_classHeader hx hforces]
  refine ⟨fun hhead => ?_, fun hhead => by rw [hrefused hhead]; rfl⟩
  obtain ⟨stop, hrun⟩ := hfound hhead
  refine ⟨_, by rw [hrun, Option.map_some], ?_, ?_⟩
  · exact part_of_marks (b := []) (List.prefix_append _ _) (by simp) (exact_nameSpot x) rfl
  · exact part?_of_marks (b := [_, _]) List.prefix_rfl (by simp) hexact₁ hm₁

/-! ## The class as it is declared -/

theorem classDeclaration?_of_match? {ls : List Line} {r : Match} {name list : List Char}
    (hmatch : classHeader.match? (firstTrimmed ls) = some r) (hname : r.part .name = name)
    (hbases : r.part? .bases = some list) :
    classDeclaration? ls = some (.classHead (headOf name (splitOuter ',' list) list)) := by
  simp only [classDeclaration?, hmatch, hname, hbases, Option.bind_eq_bind, Option.bind_some,
    Option.getD_some]
  rfl

/-- The list is cut into its items. -/
theorem ClassLine.IsWritten.splitOuter_list (hx : x.IsWritten) :
    splitOuter ',' x.list = x.items.map Text.trim := by
  refine splitOuter_of_fills isSeparator_comma fun u hu => ?_
  have hpiece := hx.isItems u hu
  exact ⟨hpiece.ne_nil, hpiece.fills.of_trim rfl⟩

/-- Lists without their own closing brackets are read as they are written, whatever stands behind
the colon. -/
theorem ClassLine.IsWritten.classDeclaration?_flat {ls : List Line} (hx : x.IsWritten)
    (hparams : ∀ p ∈ x.params, ']' ∉ p) (hlist : ')' ∉ x.list) (h : firstTrimmed ls = x.text) :
    classDeclaration? ls = some (.classHead x.head) := by
  obtain ⟨r, hmatch, hname, hbases⟩ := (exists_match? hx hparams rfl hlist).1 rfl
  rw [← h] at hmatch
  rw [classDeclaration?_of_match? hmatch hname hbases, ClassLine.head, hx.splitOuter_list]

/-- The header of a class is read as it is written, up to a list that holds its own closing
bracket. -/
theorem classDeclaration?_classLine {ls : List Line} (hx : x.IsWritten)
    (h : firstTrimmed ls = x.text) : x.Reads (classDeclaration? ls) := by
  constructor
  · exact fun hparams hlist => hx.classDeclaration?_flat hparams hlist h
  · intro hparams u v hlist hu
    have hrest : x.fromList = '(' :: (u ++ ')' :: (v ++ ')' :: ':' :: x.behind)) := by
      rw [ClassLine.fromList, hlist]
      simp
    have hhead : (Text.trimStart (v ++ ')' :: ':' :: x.behind)).head? = some ':' ↔
        (Text.trimStart v).head? = some ':' := by
      rw [Text.head?_trimStart_append rfl]
      cases (Text.trimStart v).head? <;> simp
    obtain ⟨hfound, hrefused⟩ := exists_match? hx hparams hrest hu
    rw [hhead] at hfound
    rw [Ne, hhead] at hrefused
    -- the first closing bracket ends the list, so what is left must go on with the colon
    split
    · rename_i hcolon
      obtain ⟨r, hmatch, hname, hbases⟩ := hfound hcolon
      rw [← h] at hmatch
      exact classDeclaration?_of_match? hmatch hname hbases
    · rename_i hcolon
      rw [classDeclaration?, h, hrefused hcolon]
      rfl
  · intro p hp u v hsplit hu hhead
    have hrest : x.paramsSpot.rest = '[' :: (u ++ ']' :: (v ++ ']' :: x.fromList)) := by
      rw [rest_paramsSpot hp, hsplit]
      simp
    obtain ⟨m, hm, -, hforces⟩ := forces_params hrest hu
    have hnone : fromBases.run done m = none := by
      refine run_eq_none_of_trimStart fun c hc => ?_
      rw [hm, Text.head?_trimStart_append rfl] at hc
      obtain rfl := Option.some.inj hc
      cases hv : (Text.trimStart v).head? with
      | none => decide
      | some d => exact hhead d hv
    rw [classDeclaration?, h, match?_classHeader hx hforces, hnone]
    rfl

end

/-- Commas in subscripts do not cut, arguments are no bases, and what follows the colon does not
matter. -/
theorem classDeclaration?_classLine_subscript :
    classDeclaration? ["class A[T](Base[T, U], pkg.ABC , metaclass=M): pass".toList] =
      some (.classHead { name := "A", base := some "Base[T, U]", interfaces := ["pkg.ABC"],
                         isAbstract := true, exported := true, defaultExport := false }) := by
  let x : ClassLine := ⟨"A".toList, some "T".toList,
    ["Base[T, U]".toList, " pkg.ABC ".toList, " metaclass=M".toList], " pass".toList⟩
  have hx : x.IsWritten := ⟨⟨'A', [], rfl, by decide, nofun⟩, by decide⟩
  have hparams : ∀ p ∈ x.params, ']' ∉ p := by
    rintro p ⟨⟩
    decide
  have hread : x.Reads (classDeclaration? [x.text]) := classDeclaration?_classLine hx (by decide)
  have htext : x.text = "class A[T](Base[T, U], pkg.ABC , metaclass=M): pass".toList := by decide
  rw [← htext, hread.flat hparams (by decide)]
  decide

/-- A call among the bases hides the class. -/
theorem classDeclaration?_call :
    (∃ x : ClassLine, x.IsWritten ∧ x.text = "class A(make(x), B):".toList ∧
      x.head = { name := "A", base := some "make(x)", interfaces := ["B"], isAbstract := false,
                 exported := true, defaultExport := false }) ∧
      classDeclaration? ["class A(make(x), B):".toList] = none := by
  let x : ClassLine := ⟨"A".toList, none, ["make(x)".toList, " B".toList], []⟩
  have hx : x.IsWritten := ⟨⟨'A', [], rfl, by decide, nofun⟩, by decide⟩
  have hlist : x.fromList = '(' :: ("make(x".toList ++ ')' :: ", B):".toList) := by decide
  have htext : x.text = firstTrimmed ["class A(make(x), B):".toList] := by decide
  refine ⟨⟨x, hx, by decide, by decide⟩, ?_⟩
  rw [classDeclaration?, ← htext, (exists_match? hx nofun hlist (by decide)).2 (by decide)]
  rfl

end CodeAtlas.Indent
