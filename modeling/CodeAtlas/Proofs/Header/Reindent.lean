/-
Headers on lines with other blanks in front.

A recogniser looks at the first line trimmed, at a text joined from trimmed lines, or at
the trimmed lines of a block, and so it answers for the changed lines what it answers for
the lines. `firstHit_eq` carries this from the rows of a table to the table.
-/
import CodeAtlas.Proofs.Extent.Reindent
import Mathlib.Data.Option.Basic

set_option autoImplicit false

namespace CodeAtlas

theorem window_map (line : Line → Line) (extent : Nat) (ls : List Line) :
    window extent (ls.map line) = (window extent ls).map line := by
  rw [window, window, List.map_take]

/-- A table whose recognisers answer alike for two files has the same first hit for both. -/
theorem firstHit_eq {table : List (String × Recogniser)} {ls ms : List Line}
    (hrows : ∀ row ∈ table, row.2 ls = row.2 ms) : firstHit table ls = firstHit table ms := by
  induction table with
  | nil => rfl
  | cons row table ih =>
    obtain ⟨name, recognise⟩ := row
    obtain ⟨hrow, htable⟩ := List.forall_mem_cons.mp hrows
    have htail := ih htable
    simp only [firstHit, List.findSome?_cons] at hrow htail ⊢
    rw [hrow, htail]

namespace Reindents

variable {line : Line → Line} {width : Nat → Nat} (h : Reindents line width)
include h

/-! ## The brace family -/

theorem importStatement? (ls : List Line) :
    Brace.importStatement? (ls.map line) = Brace.importStatement? ls := by
  simp only [Brace.importStatement?, h.firstTrimmed, ← List.map_drop, h.joinImport]

theorem addMembers (record : InterfaceRecord) (depth : Int) (number : Nat) (ls : List Line) :
    Brace.addMembers record depth number (ls.map line) =
      Brace.addMembers record depth number ls := by
  induction ls generalizing record depth number with
  | nil => rfl
  | cons l ls ih => simp only [List.map_cons, Brace.addMembers, h.trim, h.braceDelta, ih]

theorem interfaceDeclaration? (ls : List Line) :
    Brace.interfaceDeclaration? (ls.map line) = Brace.interfaceDeclaration? ls := by
  simp only [Brace.interfaceDeclaration?, h.firstTrimmed, h.braceExtent, window_map,
    ← List.map_drop, h.braceDelta_headD, h.addMembers]

theorem functionDeclaration? (ls : List Line) :
    Brace.functionDeclaration? (ls.map line) = Brace.functionDeclaration? ls := by
  simp only [Brace.functionDeclaration?, h.firstTrimmed, h.joinSignature]

theorem arrowDeclaration? (ls : List Line) :
    Brace.arrowDeclaration? (ls.map line) = Brace.arrowDeclaration? ls := by
  simp only [Brace.arrowDeclaration?, h.firstTrimmed, h.joinSignature]

theorem methodDeclaration? (ls : List Line) :
    Brace.methodDeclaration? (ls.map line) = Brace.methodDeclaration? ls := by
  simp only [Brace.methodDeclaration?, h.joinSignature]

theorem braceOutside (ls : List Line) :
    firstHit Brace.outside (ls.map line) = firstHit Brace.outside ls := by
  refine firstHit_eq fun row hrow => ?_
  simp only [Brace.outside, List.mem_cons, List.not_mem_nil, or_false] at hrow
  rcases hrow with rfl | rfl | rfl | rfl | rfl | rfl | rfl | rfl | rfl
  · exact h.importStatement? ls
  · simp only [Brace.classDeclaration?, h.firstTrimmed]
  · exact h.interfaceDeclaration? ls
  · simp only [Brace.aliasDeclaration?, h.firstTrimmed]
  · simp only [Brace.enumDeclaration?, h.firstTrimmed]
  · simp only [Brace.namespaceDeclaration?, h.firstTrimmed]
  · exact h.functionDeclaration? ls
  · exact h.arrowDeclaration? ls
  · simp only [Brace.constantDeclaration?, h.firstTrimmed]

theorem braceInside (ls : List Line) :
    firstHit Brace.inside (ls.map line) = firstHit Brace.inside ls := by
  refine firstHit_eq fun row hrow => ?_
  simp only [Brace.inside, List.mem_cons, List.not_mem_nil, or_false] at hrow
  rcases hrow with rfl | rfl
  · exact h.methodDeclaration? ls
  · simp only [Brace.fieldDeclaration?, h.firstTrimmed]

/-! ## The indentation family -/

theorem importList (clause : List Char) (ls : List Line) :
    Indent.importList clause (ls.map line) = Indent.importList clause ls := by
  simp only [Indent.importList, h.joinList]

theorem moduleStatement? (ls : List Line) :
    Indent.importStatement? (ls.map line) = Indent.importStatement? ls := by
  simp only [Indent.importStatement?, h.firstTrimmed, ← List.map_drop, h.importList]

theorem decorator? (ls : List Line) :
    Indent.decorator? (ls.map line) = Indent.decorator? ls := by
  simp only [Indent.decorator?, h.firstTrimmed]

theorem classDeclaration? (ls : List Line) :
    Indent.classDeclaration? (ls.map line) = Indent.classDeclaration? ls := by
  simp only [Indent.classDeclaration?, h.firstTrimmed]

theorem defDeclaration? (ls : List Line) :
    Indent.defDeclaration? (ls.map line) = Indent.defDeclaration? ls := by
  simp only [Indent.defDeclaration?, h.firstTrimmed, h.joinSignature]

theorem indentOutside (ls : List Line) :
    firstHit Indent.outside (ls.map line) = firstHit Indent.outside ls := by
  refine firstHit_eq fun row hrow => ?_
  simp only [Indent.outside, List.mem_cons, List.not_mem_nil, or_false] at hrow
  rcases hrow with rfl | rfl | rfl | rfl | rfl
  · exact h.moduleStatement? ls
  · exact h.decorator? ls
  · exact h.classDeclaration? ls
  · exact h.defDeclaration? ls
  · simp only [Indent.constant?, h.firstTrimmed]

theorem indentInside (ls : List Line) :
    firstHit Indent.inside (ls.map line) = firstHit Indent.inside ls := by
  refine firstHit_eq fun row hrow => ?_
  simp only [Indent.inside, List.mem_cons, List.not_mem_nil, or_false] at hrow
  rcases hrow with rfl | rfl | rfl | rfl
  · exact h.decorator? ls
  · exact h.classDeclaration? ls
  · exact h.defDeclaration? ls
  · simp only [Indent.attribute?, h.firstTrimmed]

theorem closesClass (base : Nat) {ls : List Line} (hne : ls ≠ []) :
    Indent.closesClass (width base) ((ls.map line).headD []) =
      Indent.closesClass base (ls.headD []) := by
  obtain ⟨l, ls, rfl⟩ := List.exists_cons_of_ne_nil hne
  have hdeep : decide (Text.indentation (line l) ≤ width base) =
      decide (Text.indentation l ≤ base) := by
    rw [h.indentation, decide_eq_decide, h.strictMono.le_iff_le]
  rw [List.map_cons, List.headD_cons, List.headD_cons, Indent.closesClass, Indent.closesClass,
    h.trim, hdeep]

/-- The properties that the body of a method assigns are on its trimmed lines. -/
theorem assignedProperties (ls : List Line) :
    Indent.assignedProperties (ls.map line) = Indent.assignedProperties ls := by
  induction ls with
  | nil => rfl
  | cons l ls ih =>
    have hself : Indent.selfAssignment? (line l :: ls.map line) =
        Indent.selfAssignment? (l :: ls) := by
      have hfirst := h.firstTrimmed (l :: ls)
      rw [List.map_cons] at hfirst
      rw [Indent.selfAssignment?, Indent.selfAssignment?, hfirst]
    rw [List.map_cons, Indent.assignedProperties, Indent.assignedProperties, hself, ih]

end Reindents

end CodeAtlas
