/-
Answers of recognisers count from the current line.

A recogniser does not know where in the file it stands. What it says about lines is
local: a record stands on line one, a function header takes as many further lines as
its round brackets need, and a method of an interface stands at depth one on a line
of the interface's block. `Construct.IsLocal` says this of one answer, and holds of
every answer of every table.
-/
import CodeAtlas.Proofs.Extent.Return
import Mathlib.Data.List.Basic
import Mathlib.Data.Option.Basic

set_option autoImplicit false

namespace CodeAtlas

/-! ## What an answer says about lines -/

/-- Does line `line` stand in the block that the first line opens, at depth one? Lines
count from one, so the line has `line - 1` lines in front of it. -/
structure StandsInside (ls : List Line) (line : Nat) : Prop where
  behind : 1 < line
  within : line ≤ braceExtent ls + 1
  depth : netDelta (ls.take (line - 1)) = 1

/-- Every line number in the answer counts from the first of the lines. -/
def Construct.IsLocal (ls : List Line) : Construct → Prop
  | .imports rs => ∀ r ∈ rs, r.line = 1
  | .function head => head.further = (joinSignature ls).further
  | .method head => head.further = (joinSignature ls).further
  | .interface r => r.line = 1 ∧ ∀ f ∈ r.methods, StandsInside ls f.line
  | .type r => r.line = 1
  | .constant r => r.line = 1
  | .classHead _ | .property _ | .decorator _ => True

/-- The header of the function or method that an answer declares. -/
def Construct.head? : Construct → Option FunctionHead
  | .function head | .method head => some head
  | _ => none

theorem Construct.IsLocal.further_eq {ls : List Line} {c : Construct} {head : FunctionHead}
    (h : c.IsLocal ls) (hhead : c.head? = some head) :
    head.further = (joinSignature ls).further := by
  cases c <;> simp only [head?, Option.some.injEq, reduceCtorEq] at hhead <;>
    (subst hhead; exact h)

/-- The header of a local answer ends on one of the lines, after at most as many as are
looked at. -/
theorem Construct.IsLocal.further_bounds {ls : List Line} {c : Construct} {head : FunctionHead}
    (h : c.IsLocal ls) (hhead : c.head? = some head) (hne : ls ≠ []) :
    head.further ≤ maxLookahead ∧ head.further < ls.length := by
  rw [h.further_eq hhead]
  exact ⟨joinSignature_further_le ls, joinSignature_further_lt hne⟩

theorem exists_row_of_firstHit {table : List (String × Recogniser)} {ls : List Line}
    {name : String} {c : Construct} (h : firstHit table ls = some (name, c)) :
    ∃ recognise, (name, recognise) ∈ table ∧ recognise ls = some c := by
  obtain ⟨⟨n, recognise⟩, hmem, hrow⟩ := List.exists_of_findSome?_eq_some h
  obtain ⟨c', hc, heq⟩ := Option.map_eq_some_iff.mp hrow
  simp only [Prod.mk.injEq] at heq
  obtain ⟨rfl, rfl⟩ := heq
  exact ⟨recognise, hmem, hc⟩

/-! ## Members of interfaces -/

namespace Brace

theorem line_of_memberMethod? {line : Nat} {t : List Char} {f : FunctionRecord}
    (h : memberMethod? line t = some f) : f.line = line := by
  simp only [memberMethod?, Option.bind_eq_bind, Option.bind_eq_some_iff] at h
  obtain ⟨m, -, ⟨inner, rest⟩, -, tail, -, h⟩ := h
  cases h
  rfl

/-- A member adds at most the method on its line. -/
theorem mem_methods_addMember {record : InterfaceRecord} {line : Nat} {t : List Char}
    {f : FunctionRecord} (h : f ∈ (addMember record line t).methods) :
    f ∈ record.methods ∨ memberMethod? line t = some f := by
  unfold addMember at h
  split at h
  · rename_i g hg
    rcases List.mem_append.mp h with hold | hnew
    · exact Or.inl hold
    · rw [List.mem_singleton.mp hnew]
      exact Or.inr hg
  · split at h <;> exact Or.inl h

/-- Each method that is added is the method on one of the lines, which stands at depth one. -/
theorem mem_methods_addMembers {record : InterfaceRecord} {depth : Int} {line : Nat}
    {ls : List Line} {f : FunctionRecord} (h : f ∈ (addMembers record depth line ls).methods) :
    f ∈ record.methods ∨
      ∃ i l, ls[i]? = some l ∧ depth + netDelta (ls.take i) = 1 ∧
        memberMethod? (line + i) (Text.trim l) = some f := by
  -- on the lines, with the depth in front of them carried along
  induction ls generalizing record depth line with
  | nil => exact Or.inl h
  | cons l ls ih =>
    simp only [addMembers] at h
    rcases ih h with hold | ⟨i, l', hi, hdepth, hmember⟩
    · split at hold
      · rename_i hcan
        simp only [Bool.and_eq_true, decide_eq_true_eq] at hcan
        rcases mem_methods_addMember hold with hrec | hmember
        · exact Or.inl hrec
        · -- the first of the lines has none in front of it
          refine Or.inr ⟨0, l, rfl, ?_, hmember⟩
          simpa [netDelta] using hcan.1
      · exact Or.inl hold
    · refine Or.inr ⟨i + 1, l', by simpa using hi, ?_, ?_⟩
      · rw [List.take_succ_cons, netDelta_cons]
        omega
      · rwa [show line + (i + 1) = line + 1 + i by omega]

/-- The members of an interface add to its properties and methods only. -/
theorem exists_addMembers (record : InterfaceRecord) (depth : Int) (line : Nat) (ls : List Line) :
    ∃ properties methods, addMembers record depth line ls =
      { record with properties := properties, methods := methods } := by
  -- one line adds one method, one property or nothing
  have hmember : ∀ (record : InterfaceRecord) (line : Nat) (t : List Char),
      ∃ properties methods, addMember record line t =
        { record with properties := properties, methods := methods } := by
    intro record line t
    rw [addMember]
    split
    · exact ⟨_, _, rfl⟩
    · split
      · exact ⟨_, _, rfl⟩
      · exact ⟨_, _, rfl⟩
  induction ls generalizing record depth line with
  | nil => exact ⟨record.properties, record.methods, rfl⟩
  | cons l ls ih =>
    rw [addMembers]
    obtain ⟨properties, methods, hrest⟩ := ih
      (if depth = 1 && mayHoldMember (Text.trim l) then addMember record line (Text.trim l)
        else record) (depth + braceDelta l) (line + 1)
    refine ⟨properties, methods, ?_⟩
    rw [hrest]
    split
    · obtain ⟨properties', methods', hline⟩ := hmember record line (Text.trim l)
      rw [hline]
    · rfl

theorem line_addMembers (record : InterfaceRecord) (depth : Int) (line : Nat)
    (ls : List Line) : (addMembers record depth line ls).line = record.line := by
  obtain ⟨properties, methods, hmembers⟩ := exists_addMembers record depth line ls
  rw [hmembers]

/-- The body of a block is what stands behind its first line, so line `i` of the body is
line `i + 2` of the block. -/
theorem standsInside_of_body {ls : List Line} {line i : Nat}
    (hi : i < ((window (braceExtent ls) ls).drop 1).length) (hline : line = 2 + i)
    (hdepth : braceDelta (ls.headD []) +
      netDelta (((window (braceExtent ls) ls).drop 1).take i) = 1) :
    StandsInside ls line := by
  cases ls with
  | nil => simp [window] at hi
  | cons l ls =>
    simp only [window, List.take_succ_cons, List.drop_succ_cons, List.drop_zero,
      List.length_take, List.headD_cons] at hi hdepth
    rw [List.take_take, Nat.min_eq_left (by omega)] at hdepth
    subst hline
    refine ⟨by omega, by omega, ?_⟩
    rw [show 2 + i - 1 = i + 1 by omega, List.take_succ_cons, netDelta_cons]
    exact hdepth

/-! ## The recognisers of the brace family -/

section

variable {ls : List Line} {c : Construct}

theorem isLocal_of_importStatement? (h : importStatement? ls = some c) : c.IsLocal ls := by
  simp only [importStatement?, Option.bind_eq_bind] at h
  split at h
  · cases h
    simp [Construct.IsLocal, importRecord]
  · simp only [Option.bind_eq_some_iff] at h
    obtain ⟨-, -, h⟩ := h
    split at h
    · cases h
      simp [Construct.IsLocal, importRecord]
    · simp only [Option.bind_eq_some_iff] at h
      obtain ⟨m, -, h⟩ := h
      cases h
      simp [Construct.IsLocal, importRecord]

theorem isLocal_of_classDeclaration? (h : classDeclaration? ls = some c) : c.IsLocal ls := by
  simp only [classDeclaration?, Option.bind_eq_bind, Option.bind_eq_some_iff] at h
  obtain ⟨m, -, h⟩ := h
  cases h
  trivial

theorem isLocal_of_interfaceDeclaration? (h : interfaceDeclaration? ls = some c) :
    c.IsLocal ls := by
  simp only [interfaceDeclaration?, Option.bind_eq_bind, Option.bind_eq_some_iff] at h
  obtain ⟨m, -, h⟩ := h
  cases h
  constructor
  · exact line_addMembers _ _ _ _
  · intro f hf
    rcases mem_methods_addMembers hf with hold | ⟨i, l, hi, hdepth, hmember⟩
    · simp at hold
    · have hlt := (List.getElem?_eq_some_iff.mp hi).1
      exact standsInside_of_body hlt (line_of_memberMethod? hmember) hdepth

theorem isLocal_of_aliasDeclaration? (h : aliasDeclaration? ls = some c) : c.IsLocal ls := by
  simp only [aliasDeclaration?, Option.bind_eq_bind, Option.bind_eq_some_iff] at h
  obtain ⟨m, -, h⟩ := h
  cases h
  rfl

theorem isLocal_of_enumDeclaration? (h : enumDeclaration? ls = some c) : c.IsLocal ls := by
  simp only [enumDeclaration?, Option.bind_eq_bind, Option.bind_eq_some_iff] at h
  obtain ⟨m, -, h⟩ := h
  cases h
  rfl

theorem isLocal_of_namespaceDeclaration? (h : namespaceDeclaration? ls = some c) :
    c.IsLocal ls := by
  simp only [namespaceDeclaration?, Option.bind_eq_bind, Option.bind_eq_some_iff] at h
  obtain ⟨m, -, h⟩ := h
  cases h
  rfl

theorem isLocal_of_constantDeclaration? (h : constantDeclaration? ls = some c) :
    c.IsLocal ls := by
  simp only [constantDeclaration?, Option.bind_eq_bind, Option.bind_eq_some_iff] at h
  obtain ⟨m, -, h⟩ := h
  cases h
  rfl

theorem isLocal_of_functionDeclaration? (h : functionDeclaration? ls = some c) :
    c.IsLocal ls := by
  simp only [functionDeclaration?, Option.bind_eq_bind, Option.bind_eq_some_iff] at h
  obtain ⟨-, -, m, -, ⟨params, tail⟩, -, h⟩ := h
  cases h
  rfl

theorem isLocal_of_arrowDeclaration? (h : arrowDeclaration? ls = some c) : c.IsLocal ls := by
  simp only [arrowDeclaration?, Option.bind_eq_bind, Option.bind_eq_some_iff] at h
  obtain ⟨-, -, m, -, ⟨kind, params, returnType, body⟩, -, h⟩ := h
  cases h
  rfl

theorem isLocal_of_methodDeclaration? (h : methodDeclaration? ls = some c) :
    c.IsLocal ls := by
  simp only [methodDeclaration?, Option.bind_eq_bind, Option.bind_eq_some_iff] at h
  obtain ⟨m, -, -, -, ⟨params, tail⟩, -, h⟩ := h
  cases h
  rfl

theorem isLocal_of_fieldDeclaration? (h : fieldDeclaration? ls = some c) : c.IsLocal ls := by
  simp only [fieldDeclaration?, Option.bind_eq_bind, Option.bind_eq_some_iff] at h
  obtain ⟨m, -, -, -, -, -, h⟩ := h
  cases h
  trivial

end

/-- Every answer outside classes is local. -/
theorem isLocal_of_outside {ls : List Line} {name : String} {c : Construct}
    (h : firstHit outside ls = some (name, c)) : c.IsLocal ls := by
  obtain ⟨recognise, hmem, hrow⟩ := exists_row_of_firstHit h
  simp only [outside, List.mem_cons, List.not_mem_nil, or_false, Prod.mk.injEq] at hmem
  rcases hmem with ⟨-, rfl⟩ | ⟨-, rfl⟩ | ⟨-, rfl⟩ | ⟨-, rfl⟩ | ⟨-, rfl⟩ | ⟨-, rfl⟩ |
    ⟨-, rfl⟩ | ⟨-, rfl⟩ | ⟨-, rfl⟩
  · exact isLocal_of_importStatement? hrow
  · exact isLocal_of_classDeclaration? hrow
  · exact isLocal_of_interfaceDeclaration? hrow
  · exact isLocal_of_aliasDeclaration? hrow
  · exact isLocal_of_enumDeclaration? hrow
  · exact isLocal_of_namespaceDeclaration? hrow
  · exact isLocal_of_functionDeclaration? hrow
  · exact isLocal_of_arrowDeclaration? hrow
  · exact isLocal_of_constantDeclaration? hrow

/-- Every answer inside a class is local. -/
theorem isLocal_of_inside {ls : List Line} {name : String} {c : Construct}
    (h : firstHit inside ls = some (name, c)) : c.IsLocal ls := by
  obtain ⟨recognise, hmem, hrow⟩ := exists_row_of_firstHit h
  simp only [inside, List.mem_cons, List.not_mem_nil, or_false, Prod.mk.injEq] at hmem
  rcases hmem with ⟨-, rfl⟩ | ⟨-, rfl⟩
  · exact isLocal_of_methodDeclaration? hrow
  · exact isLocal_of_fieldDeclaration? hrow

theorem line_of_mem_exportsOf {t : List Char} {r : ExportRecord} (h : r ∈ exportsOf t) :
    r.line = 1 := by
  unfold exportsOf at h
  split at h
  · simp at h
  · split at h
    · simp only [List.mem_singleton] at h
      rw [h]
    · split at h
      · obtain ⟨entry, -, hentry⟩ := List.mem_filterMap.mp h
        simp only [ exportEntry?] at hentry
        split at hentry
        · simp at hentry
        · simp only [Option.some.injEq] at hentry
          rw [← hentry]
      · split at h
        · simp only [List.mem_singleton] at h
          rw [h]
        · split at h
          · simp only [List.mem_singleton] at h
            rw [h]
          · simp at h

/-- The other rows of the two tables answer with no header of a function. -/
theorem head?_eq_none_of_row {recognise : Recogniser} {ls : List Line} {c : Construct}
    (hrow : recognise ∈ [importStatement?, classDeclaration?, interfaceDeclaration?,
      aliasDeclaration?, enumDeclaration?, namespaceDeclaration?, constantDeclaration?,
      fieldDeclaration?])
    (h : recognise ls = some c) : c.head? = none := by
  simp only [List.mem_cons, List.not_mem_nil, or_false] at hrow
  rcases hrow with rfl | rfl | rfl | rfl | rfl | rfl | rfl | rfl
  · simp only [importStatement?, Option.bind_eq_bind] at h
    split at h
    · cases h
      rfl
    · simp only [Option.bind_eq_some_iff] at h
      obtain ⟨-, -, h⟩ := h
      split at h
      · cases h
        rfl
      · simp only [Option.bind_eq_some_iff] at h
        obtain ⟨m, -, h⟩ := h
        cases h
        rfl
  -- six of the rows make their answer of the match of one pattern
  iterate 6
    · simp only [classDeclaration?, interfaceDeclaration?, aliasDeclaration?, enumDeclaration?,
        namespaceDeclaration?, constantDeclaration?, Option.bind_eq_bind,
        Option.bind_eq_some_iff] at h
      obtain ⟨m, -, h⟩ := h
      cases h
      rfl
  · simp only [fieldDeclaration?, Option.bind_eq_bind, Option.bind_eq_some_iff] at h
    obtain ⟨m, -, -, -, -, -, h⟩ := h
    cases h
    rfl

end Brace

/-! ## The recognisers of the indentation family -/

namespace Indent

section

variable {ls : List Line} {c : Construct}

theorem line_of_moduleRecord? {item : List Char} {r : ImportRecord}
    (h : moduleRecord? item = some r) : r.line = 1 := by
  simp only [moduleRecord?] at h
  split at h
  · simp at h
  · cases h
    rfl

theorem isLocal_of_importStatement? (h : importStatement? ls = some c) : c.IsLocal ls := by
  simp only [importStatement?, Option.bind_eq_bind] at h
  split at h
  · cases h
    simp [Construct.IsLocal, fromRecord]
  · simp only [Option.bind_eq_some_iff] at h
    obtain ⟨m, -, -, -, h⟩ := h
    cases h
    -- one record for each module that the statement names
    intro r hr
    obtain ⟨item, -, hitem⟩ := List.mem_filterMap.mp hr
    exact line_of_moduleRecord? hitem

theorem isLocal_of_decorator? (h : decorator? ls = some c) : c.IsLocal ls := by
  simp only [decorator?, Option.bind_eq_bind, Option.bind_eq_some_iff] at h
  obtain ⟨m, -, h⟩ := h
  cases h
  trivial

theorem isLocal_of_classDeclaration? (h : classDeclaration? ls = some c) : c.IsLocal ls := by
  simp only [classDeclaration?, Option.bind_eq_bind, Option.bind_eq_some_iff] at h
  obtain ⟨m, -, h⟩ := h
  cases h
  trivial

theorem isLocal_of_defDeclaration? (h : defDeclaration? ls = some c) : c.IsLocal ls := by
  simp only [defDeclaration?, Option.bind_eq_bind, Option.bind_eq_some_iff] at h
  obtain ⟨-, -, m, -, ⟨inner, rest⟩, -, tail, -, h⟩ := h
  cases h
  rfl

theorem isLocal_of_constant? (h : constant? ls = some c) : c.IsLocal ls := by
  simp only [constant?, Option.bind_eq_bind, Option.bind_eq_some_iff] at h
  obtain ⟨m, -, h⟩ := h
  cases h
  rfl

theorem isLocal_of_attribute? (h : attribute? ls = some c) : c.IsLocal ls := by
  simp only [attribute?] at h
  split at h
  · cases h
    trivial
  · obtain ⟨m, -, rfl⟩ := Option.map_eq_some_iff.mp h
    trivial

end

/-- Every answer outside classes is local. -/
theorem isLocal_of_outside {ls : List Line} {name : String} {c : Construct}
    (h : firstHit outside ls = some (name, c)) : c.IsLocal ls := by
  obtain ⟨recognise, hmem, hrow⟩ := exists_row_of_firstHit h
  simp only [outside, List.mem_cons, List.not_mem_nil, or_false, Prod.mk.injEq] at hmem
  rcases hmem with ⟨-, rfl⟩ | ⟨-, rfl⟩ | ⟨-, rfl⟩ | ⟨-, rfl⟩ | ⟨-, rfl⟩
  · exact isLocal_of_importStatement? hrow
  · exact isLocal_of_decorator? hrow
  · exact isLocal_of_classDeclaration? hrow
  · exact isLocal_of_defDeclaration? hrow
  · exact isLocal_of_constant? hrow

/-- Every answer inside a class is local. -/
theorem isLocal_of_inside {ls : List Line} {name : String} {c : Construct}
    (h : firstHit inside ls = some (name, c)) : c.IsLocal ls := by
  obtain ⟨recognise, hmem, hrow⟩ := exists_row_of_firstHit h
  simp only [inside, List.mem_cons, List.not_mem_nil, or_false, Prod.mk.injEq] at hmem
  rcases hmem with ⟨-, rfl⟩ | ⟨-, rfl⟩ | ⟨-, rfl⟩ | ⟨-, rfl⟩
  · exact isLocal_of_decorator? hrow
  · exact isLocal_of_classDeclaration? hrow
  · exact isLocal_of_defDeclaration? hrow
  · exact isLocal_of_attribute? hrow

/-- The other rows of the two tables answer with no header of a function. -/
theorem head?_eq_none_of_row {recognise : Recogniser} {ls : List Line} {c : Construct}
    (hrow : recognise ∈ [importStatement?, decorator?, classDeclaration?, constant?, attribute?])
    (h : recognise ls = some c) : c.head? = none := by
  simp only [List.mem_cons, List.not_mem_nil, or_false] at hrow
  rcases hrow with rfl | rfl | rfl | rfl | rfl
  · simp only [importStatement?, Option.bind_eq_bind] at h
    split at h
    · cases h
      rfl
    · simp only [Option.bind_eq_some_iff] at h
      obtain ⟨m, -, -, -, h⟩ := h
      cases h
      rfl
  -- three of the rows make their answer of the match of one pattern
  iterate 3
    · simp only [decorator?, classDeclaration?, constant?, Option.bind_eq_bind,
        Option.bind_eq_some_iff] at h
      obtain ⟨m, -, h⟩ := h
      cases h
      rfl
  · simp only [attribute?] at h
    split at h
    · cases h
      rfl
    · obtain ⟨m, -, rfl⟩ := Option.map_eq_some_iff.mp h
      rfl

end Indent

end CodeAtlas
