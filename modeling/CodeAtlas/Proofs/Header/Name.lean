/-
Names stand where their records say.

What an answer says of a line it says together with a name, and the name is a piece of
that line (`Construct.IsNamed`). For a header that is read from its first line alone this
holds because any part of a match is a piece of the text. A header of a function may be
joined from many lines; but a line is joined only behind a round bracket that is open,
and the name stands in front of the first round bracket of the header, because nothing up
to the name can take one.
-/
import CodeAtlas.Proofs.Header.Local
import CodeAtlas.Proofs.Nesting.Quiet
import CodeAtlas.Proofs.Pattern.Parts

set_option autoImplicit false

namespace CodeAtlas

/-- The line with the number; lines are counted from one. -/
def lineAt (ls : List Line) (n : Nat) : Line := ls.getD (n - 1) []

theorem lineAt_succ (file : List Line) (i : Nat) :
    lineAt file (i + 1) = (file.drop i).headD [] := by
  rw [lineAt, Nat.add_sub_cancel, List.headD_eq_head?_getD, List.head?_drop,
    List.getD_eq_getElem?_getD]

/-- The line with the number is one of the lines, and the name is a piece of it. -/
structure NamedAt (ls : List Line) (name : String) (line : Nat) : Prop where
  first : 1 ≤ line
  last : line ≤ ls.length
  named : name.toList <:+: lineAt ls line

/-- What the answer names stands on the line that the answer says; a header whose answer
has no line number stands on the first one. -/
def Construct.IsNamed (ls : List Line) : Construct → Prop
  | .function head | .method head => NamedAt ls head.name 1
  | .classHead head => NamedAt ls head.name 1
  | .interface r => NamedAt ls r.name r.line ∧
      ∀ f ∈ r.methods, NamedAt ls f.name f.line ∧ f.lineCount = 1
  | .type r => NamedAt ls r.name r.line
  | .constant r => NamedAt ls r.name r.line
  | .imports _ | .property _ | .decorator _ => True

/-- Lines are counted from one place or from another one further up. -/
theorem NamedAt.of_drop {file : List Line} {i line : Nat} {name : String}
    (h : NamedAt (file.drop i) name line) : NamedAt file name (line + i) := by
  have hfirst := h.first
  have hlast := h.last
  rw [List.length_drop] at hlast
  refine ⟨by omega, by omega, ?_⟩
  have hnamed := h.named
  rw [lineAt, List.getD_eq_getElem?_getD, List.getElem?_drop] at hnamed
  rw [lineAt, List.getD_eq_getElem?_getD]
  rwa [show line + i - 1 = i + (line - 1) by omega]

theorem infix_of_infix_trim {s l : List Char} (h : s <:+: Text.trim l) : s <:+: l := by
  have hstart : Text.trimStart l <:+ l := List.dropWhile_suffix _
  exact h.trans ((trim_prefix_trimStart l).isInfix.trans hstart.isInfix)

/-- A name that is a piece of the first line, blanks apart, stands on the first line. -/
theorem namedAt_one {ls : List Line} (hne : ls ≠ []) {name : List Char}
    (h : name <:+: firstTrimmed ls) : NamedAt ls (textOf name) 1 := by
  obtain ⟨l, ls, rfl⟩ := List.exists_cons_of_ne_nil hne
  refine ⟨Nat.le_refl 1, by simp, ?_⟩
  rw [textOf, String.toList_ofList]
  exact infix_of_infix_trim h

/-! ## Joined headers -/

theorem parenBalanceFrom_nonpos {q : Quoting} {t : List Char} (h : '(' ∉ t) :
    parenBalanceFrom q t ≤ 0 := by
  induction t generalizing q with
  | nil => cases q <;> exact Int.le_refl 0
  | cons c t ih =>
    rw [List.mem_cons, not_or] at h
    have hvalue : parenValue c ≤ 0 := by
      rw [parenValue, if_neg (Ne.symm h.1)]
      split <;> decide
    cases q with
    | code =>
      have hrest := ih (q := Quoting.code.next c) h.2
      rw [parenBalanceFrom]
      omega
    | _ =>
      rw [parenBalanceFrom]
      · exact ih h.2
      · simp

/-- A joined text begins with its first line. -/
theorem prefix_joinOpen (text : List Char) (further : Nat) (ls : List Line) :
    text <+: (joinOpen text further ls).text := by
  induction ls generalizing text further with
  | nil => exact List.prefix_rfl
  | cons l ls ih =>
    simp only [joinOpen]
    split
    · refine List.IsPrefix.trans ?_ (ih _ _)
      rw [List.append_assoc]
      exact List.prefix_append _ _
    · exact List.prefix_rfl

/-- No line is joined to a text that leaves no round bracket open. -/
theorem joinOpen_of_nonpos {text : List Char} (h : parenBalance text ≤ 0) (further : Nat)
    (ls : List Line) : joinOpen text further ls = ⟨text, further⟩ := by
  cases ls with
  | nil => rfl
  | cons l ls =>
    have hclosed : decide (0 < parenBalance text) = false := decide_eq_false (by omega)
    simp only [joinOpen, hclosed, Bool.false_and, Bool.false_eq_true, if_false]

/-- A line is joined only behind an open bracket. -/
theorem joinOpen_of_not_mem {text : List Char} (h : '(' ∉ text) (further : Nat)
    (ls : List Line) : joinOpen text further ls = ⟨text, further⟩ :=
  joinOpen_of_nonpos (parenBalanceFrom_nonpos h) further ls

/-- What a joined header has in front of its first round bracket is on the first line. -/
theorem prefix_firstTrimmed {ls : List Line} {t : List Char}
    (h : t <+: (joinSignature ls).text) (hnone : '(' ∉ t) : t <+: firstTrimmed ls := by
  have hbegin : firstTrimmed ls <+: (joinSignature ls).text := prefix_joinOpen _ _ _
  rcases List.prefix_or_prefix_of_prefix h hbegin with hle | hge
  · exact hle
  · -- the first line is no longer than the text in front of the bracket, so it has none
    have hfirst : '(' ∉ firstTrimmed ls := fun hmem => hnone (hge.subset hmem)
    have halone : joinSignature ls = ⟨firstTrimmed ls, 0⟩ := joinOpen_of_not_mem hfirst _ _
    rw [halone] at h
    exact h

open Pattern

/-- A header that keeps a name, and can take no round bracket up to the end of the name. -/
structure NamesFirst (p front inner : Pattern) : Prop where
  split : ∃ back, p = front ++ keep .name inner ++ back
  onlyName : Slot.name ∉ slots front ∧ Slot.name ∉ slots inner
  noBracket : front.takes '(' = false ∧ inner.takes '(' = false

/-- The name of a joined header stands on the first line. -/
theorem NamesFirst.namedAt {p front inner : Pattern} (hp : NamesFirst p front inner)
    {ls : List Line} (hne : ls ≠ []) {m : Match} (h : p.match? (joinSignature ls).text = some m) :
    NamedAt ls (textOf (m.part .name)) 1 := by
  obtain ⟨back, rfl⟩ := hp.split
  have hstart : (Spot.start (joinSignature ls).text).Exact := rfl
  obtain ⟨a, b, w, ⟨ms, hbefore⟩, hkept⟩ :=
    exists_kept_between hp.onlyName.1 hp.onlyName.2 hstart (matches_of_match? h)
  obtain ⟨u, hu, -, hclean⟩ := hbefore.avoids (avoids_of_takes hp.noBracket.1)
  obtain ⟨ms', hname⟩ := hkept.inner
  obtain ⟨v, hv, -, hclean'⟩ := hname.avoids (avoids_of_takes hp.noBracket.2)
  obtain rfl : w = v := List.append_cancel_right (hkept.rest.symm.trans hv)
  have hpart : m.part .name = w := by
    rw [Match.part, hkept.part?, Option.getD_some]
  have hprefix : u ++ w <+: (joinSignature ls).text := by
    have htext : (joinSignature ls).text = u ++ a.rest := hu
    rw [htext, hv, ← List.append_assoc]
    exact List.prefix_append _ _
  -- the header is joined at its brackets, so what is in front of the first is on the first line
  have hnone : '(' ∉ u ++ w := by
    intro hmem
    rcases List.mem_append.mp hmem with hmem | hmem
    · exact of_decide_eq_false (hclean _ hmem) rfl
    · exact of_decide_eq_false (hclean' _ hmem) rfl
  have hfirst := prefix_firstTrimmed hprefix hnone
  rw [hpart]
  exact namedAt_one hne ((List.suffix_append u w).isInfix.trans hfirst.isInfix)

/-- The name of a header that is read from the first line stands there. -/
theorem namedAt_of_match? {p : Pattern} {ls : List Line} (hne : ls ≠ []) {m : Match}
    (h : p.match? (firstTrimmed ls) = some m) : NamedAt ls (textOf (m.part .name)) 1 :=
  namedAt_one hne (part_infix_of_match? h .name)

/-! ## The recognisers of the brace family -/

namespace Brace

theorem namesFirst_functionHeader :
    NamesFirst functionHeader
      (flag .exported "export" ++ flag .byDefault "default" ++ opt (word "declare") ++
        flag .asynchronous "async" ++ lit "function" ++ blanks ++
        opt (keep .generator (lit "*")) ++ blanks) name where
  split := ⟨_, rfl⟩
  onlyName := by decide
  noBracket := by decide

theorem namesFirst_arrowHeader :
    NamesFirst arrowHeader (flag .exported "export" ++ oneOf ["const", "let", "var"] ++ gap)
      name where
  split := ⟨_, rfl⟩
  onlyName := by decide
  noBracket := by decide

theorem namesFirst_methodHeader :
    NamesFirst methodHeader
      (visibilityWord ++ flag .static "static" ++ opt (word "override") ++
        flag .abstracted "abstract" ++ opt (word "override") ++ flag .asynchronous "async" ++
        opt (oneOf ["get", "set"] ++ gap) ++ opt (lit "*" ++ blanks)) memberName where
  split := ⟨_, rfl⟩
  onlyName := by decide
  noBracket := by decide

/-! ### Members of interfaces -/

theorem name_of_memberMethod? {line : Nat} {t : List Char} {f : FunctionRecord}
    (h : memberMethod? line t = some f) : f.name.toList <:+: t ∧ f.lineCount = 1 := by
  simp only [memberMethod?, Option.bind_eq_bind, Option.bind_eq_some_iff] at h
  obtain ⟨m, hm, ⟨inner, rest⟩, -, tail, -, h⟩ := h
  cases h
  refine ⟨?_, rfl⟩
  rw [textOf, String.toList_ofList]
  exact part_infix_of_match? hm .name

theorem name_addMembers (record : InterfaceRecord) (depth : Int) (line : Nat) (ls : List Line) :
    (addMembers record depth line ls).name = record.name := by
  obtain ⟨properties, methods, hmembers⟩ := exists_addMembers record depth line ls
  rw [hmembers]

/-- A line of the body of a block is a line of the block, one further down. -/
theorem getElem?_of_body {ls : List Line} {i n : Nat} {l : Line}
    (h : ((window n ls).drop 1)[i]? = some l) : ls[1 + i]? = some l := by
  rw [List.getElem?_drop, window] at h
  have hlt := (List.getElem?_eq_some_iff.mp h).1
  rw [List.length_take] at hlt
  rwa [List.getElem?_take_of_lt (by omega)] at h

/-- The method on a line of the body of an interface is named there. -/
theorem namedAt_of_memberMethod? {ls : List Line} {i n : Nat} {l : Line} {f : FunctionRecord}
    (hl : ((window n ls).drop 1)[i]? = some l)
    (h : memberMethod? (2 + i) (Text.trim l) = some f) : NamedAt ls f.name f.line := by
  have hline := getElem?_of_body hl
  have hlt := (List.getElem?_eq_some_iff.mp hline).1
  rw [line_of_memberMethod? h]
  refine ⟨by omega, by omega, ?_⟩
  rw [lineAt, show 2 + i - 1 = 1 + i by omega, List.getD_eq_getElem?_getD, hline,
    Option.getD_some]
  exact infix_of_infix_trim (name_of_memberMethod? h).1

/-! ### Rows of the tables -/

section

variable {ls : List Line} {c : Construct}

theorem isNamed_of_importStatement? (h : importStatement? ls = some c) : c.IsNamed ls := by
  simp only [importStatement?, Option.bind_eq_bind] at h
  split at h
  · cases h
    trivial
  · simp only [Option.bind_eq_some_iff] at h
    obtain ⟨-, -, h⟩ := h
    split at h
    · cases h
      trivial
    · simp only [Option.bind_eq_some_iff] at h
      obtain ⟨m, -, h⟩ := h
      cases h
      trivial

theorem isNamed_of_fieldDeclaration? (h : fieldDeclaration? ls = some c) : c.IsNamed ls := by
  simp only [fieldDeclaration?, Option.bind_eq_bind, Option.bind_eq_some_iff] at h
  obtain ⟨m, -, -, -, -, -, h⟩ := h
  cases h
  trivial

variable (hne : ls ≠ [])
include hne

theorem isNamed_of_classDeclaration? (h : classDeclaration? ls = some c) : c.IsNamed ls := by
  simp only [classDeclaration?, Option.bind_eq_bind, Option.bind_eq_some_iff] at h
  obtain ⟨m, hm, h⟩ := h
  cases h
  exact namedAt_of_match? hne hm

theorem isNamed_of_interfaceDeclaration? (h : interfaceDeclaration? ls = some c) :
    c.IsNamed ls := by
  simp only [interfaceDeclaration?, Option.bind_eq_bind, Option.bind_eq_some_iff] at h
  obtain ⟨m, hm, h⟩ := h
  cases h
  constructor
  · rw [name_addMembers, line_addMembers]
    exact namedAt_of_match? hne hm
  · intro f hf
    rcases mem_methods_addMembers hf with hold | ⟨i, l, hl, -, hmember⟩
    · simp at hold
    · exact ⟨namedAt_of_memberMethod? hl hmember, (name_of_memberMethod? hmember).2⟩

theorem isNamed_of_aliasDeclaration? (h : aliasDeclaration? ls = some c) : c.IsNamed ls := by
  simp only [aliasDeclaration?, Option.bind_eq_bind, Option.bind_eq_some_iff] at h
  obtain ⟨m, hm, h⟩ := h
  cases h
  exact namedAt_of_match? hne hm

theorem isNamed_of_enumDeclaration? (h : enumDeclaration? ls = some c) : c.IsNamed ls := by
  simp only [enumDeclaration?, Option.bind_eq_bind, Option.bind_eq_some_iff] at h
  obtain ⟨m, hm, h⟩ := h
  cases h
  exact namedAt_of_match? hne hm

theorem isNamed_of_namespaceDeclaration? (h : namespaceDeclaration? ls = some c) :
    c.IsNamed ls := by
  simp only [namespaceDeclaration?, Option.bind_eq_bind, Option.bind_eq_some_iff] at h
  obtain ⟨m, hm, h⟩ := h
  cases h
  exact namedAt_of_match? hne hm

theorem isNamed_of_constantDeclaration? (h : constantDeclaration? ls = some c) :
    c.IsNamed ls := by
  simp only [constantDeclaration?, Option.bind_eq_bind, Option.bind_eq_some_iff] at h
  obtain ⟨m, hm, h⟩ := h
  cases h
  exact namedAt_of_match? hne hm

theorem isNamed_of_functionDeclaration? (h : functionDeclaration? ls = some c) :
    c.IsNamed ls := by
  simp only [functionDeclaration?, Option.bind_eq_bind, Option.bind_eq_some_iff] at h
  obtain ⟨-, -, m, hm, ⟨params, tail⟩, -, h⟩ := h
  cases h
  exact namesFirst_functionHeader.namedAt hne hm

theorem isNamed_of_arrowDeclaration? (h : arrowDeclaration? ls = some c) : c.IsNamed ls := by
  simp only [arrowDeclaration?, Option.bind_eq_bind, Option.bind_eq_some_iff] at h
  obtain ⟨-, -, m, hm, ⟨kind, params, returnType, body⟩, -, h⟩ := h
  cases h
  exact namesFirst_arrowHeader.namedAt hne hm

theorem isNamed_of_methodDeclaration? (h : methodDeclaration? ls = some c) : c.IsNamed ls := by
  simp only [methodDeclaration?, Option.bind_eq_bind, Option.bind_eq_some_iff] at h
  obtain ⟨m, hm, -, -, ⟨params, tail⟩, -, h⟩ := h
  cases h
  exact namesFirst_methodHeader.namedAt hne hm

end

/-- What a header outside classes names stands where the answer says. -/
theorem isNamed_of_outside {ls : List Line} {name : String} {c : Construct} (hne : ls ≠ [])
    (h : firstHit outside ls = some (name, c)) : c.IsNamed ls := by
  obtain ⟨recognise, hmem, hrow⟩ := exists_row_of_firstHit h
  simp only [outside, List.mem_cons, List.not_mem_nil, or_false, Prod.mk.injEq] at hmem
  rcases hmem with ⟨-, rfl⟩ | ⟨-, rfl⟩ | ⟨-, rfl⟩ | ⟨-, rfl⟩ | ⟨-, rfl⟩ | ⟨-, rfl⟩ |
    ⟨-, rfl⟩ | ⟨-, rfl⟩ | ⟨-, rfl⟩
  · exact isNamed_of_importStatement? hrow
  · exact isNamed_of_classDeclaration? hne hrow
  · exact isNamed_of_interfaceDeclaration? hne hrow
  · exact isNamed_of_aliasDeclaration? hne hrow
  · exact isNamed_of_enumDeclaration? hne hrow
  · exact isNamed_of_namespaceDeclaration? hne hrow
  · exact isNamed_of_functionDeclaration? hne hrow
  · exact isNamed_of_arrowDeclaration? hne hrow
  · exact isNamed_of_constantDeclaration? hne hrow

/-- What a header inside a class names stands where the answer says. -/
theorem isNamed_of_inside {ls : List Line} {name : String} {c : Construct} (hne : ls ≠ [])
    (h : firstHit inside ls = some (name, c)) : c.IsNamed ls := by
  obtain ⟨recognise, hmem, hrow⟩ := exists_row_of_firstHit h
  simp only [inside, List.mem_cons, List.not_mem_nil, or_false, Prod.mk.injEq] at hmem
  rcases hmem with ⟨-, rfl⟩ | ⟨-, rfl⟩
  · exact isNamed_of_methodDeclaration? hne hrow
  · exact isNamed_of_fieldDeclaration? hrow

end Brace

/-! ## The recognisers of the indentation family -/

namespace Indent

theorem namesFirst_defHeader :
    NamesFirst defHeader (flag .asynchronous "async" ++ word "def") name where
  split := ⟨_, rfl⟩
  onlyName := by decide
  noBracket := by decide

section

variable {ls : List Line} {c : Construct}

theorem isNamed_of_importStatement? (h : importStatement? ls = some c) : c.IsNamed ls := by
  simp only [importStatement?, Option.bind_eq_bind] at h
  split at h
  · cases h
    trivial
  · simp only [Option.bind_eq_some_iff] at h
    obtain ⟨m, -, -, -, h⟩ := h
    cases h
    trivial

theorem isNamed_of_decorator? (h : decorator? ls = some c) : c.IsNamed ls := by
  simp only [decorator?, Option.bind_eq_bind, Option.bind_eq_some_iff] at h
  obtain ⟨m, -, h⟩ := h
  cases h
  trivial

theorem isNamed_of_attribute? (h : attribute? ls = some c) : c.IsNamed ls := by
  simp only [attribute?] at h
  split at h
  · cases h
    trivial
  · obtain ⟨m, -, rfl⟩ := Option.map_eq_some_iff.mp h
    trivial

variable (hne : ls ≠ [])
include hne

theorem isNamed_of_classDeclaration? (h : classDeclaration? ls = some c) : c.IsNamed ls := by
  simp only [classDeclaration?, Option.bind_eq_bind, Option.bind_eq_some_iff] at h
  obtain ⟨m, hm, h⟩ := h
  cases h
  exact namedAt_of_match? hne hm

theorem isNamed_of_defDeclaration? (h : defDeclaration? ls = some c) : c.IsNamed ls := by
  simp only [defDeclaration?, Option.bind_eq_bind, Option.bind_eq_some_iff] at h
  obtain ⟨-, -, m, hm, ⟨inner, rest⟩, -, tail, -, h⟩ := h
  cases h
  exact namesFirst_defHeader.namedAt hne hm

theorem isNamed_of_constant? (h : constant? ls = some c) : c.IsNamed ls := by
  simp only [constant?, Option.bind_eq_bind, Option.bind_eq_some_iff] at h
  obtain ⟨m, hm, h⟩ := h
  cases h
  exact namedAt_of_match? hne hm

end

/-- What a header outside classes names stands where the answer says. -/
theorem isNamed_of_outside {ls : List Line} {name : String} {c : Construct} (hne : ls ≠ [])
    (h : firstHit outside ls = some (name, c)) : c.IsNamed ls := by
  obtain ⟨recognise, hmem, hrow⟩ := exists_row_of_firstHit h
  simp only [outside, List.mem_cons, List.not_mem_nil, or_false, Prod.mk.injEq] at hmem
  rcases hmem with ⟨-, rfl⟩ | ⟨-, rfl⟩ | ⟨-, rfl⟩ | ⟨-, rfl⟩ | ⟨-, rfl⟩
  · exact isNamed_of_importStatement? hrow
  · exact isNamed_of_decorator? hrow
  · exact isNamed_of_classDeclaration? hne hrow
  · exact isNamed_of_defDeclaration? hne hrow
  · exact isNamed_of_constant? hne hrow

/-- What a header inside a class names stands where the answer says. -/
theorem isNamed_of_inside {ls : List Line} {name : String} {c : Construct} (hne : ls ≠ [])
    (h : firstHit inside ls = some (name, c)) : c.IsNamed ls := by
  obtain ⟨recognise, hmem, hrow⟩ := exists_row_of_firstHit h
  simp only [inside, List.mem_cons, List.not_mem_nil, or_false, Prod.mk.injEq] at hmem
  rcases hmem with ⟨-, rfl⟩ | ⟨-, rfl⟩ | ⟨-, rfl⟩ | ⟨-, rfl⟩
  · exact isNamed_of_decorator? hrow
  · exact isNamed_of_classDeclaration? hne hrow
  · exact isNamed_of_defDeclaration? hne hrow
  · exact isNamed_of_attribute? hrow

end Indent

end CodeAtlas
