/-
What records say about bodies.

A record keeps what the analysis of its body has found, and it counts the lines that it
reaches over. Both were fixed when the record was made, from one extent. So the analysis can
be done again from the record alone: the lines that it counts are the lines that were
analysed (`rangeOf_eq_window`), for every way in which an extent can come about.

One thing is not the same the second time. A range does not know what its first line
declares, and takes the name in the header for a call. `filter_calls` says that no other name
is concerned.
-/
import CodeAtlas.Proofs.Scan.Origin
import CodeAtlas.Proofs.Text.Unrepeated

set_option autoImplicit false

namespace CodeAtlas

/-! ## Calls with and without a declaration -/

namespace Analysis

variable {family : Family} {name : String}

/-- A line calls the same names, the declared one apart, whether it declares it or not. -/
theorem filter_lineCalls (name : String) (t : List Char) :
    (lineCalls (some name) t).filter (· ≠ name) = (lineCalls none t).filter (· ≠ name) := by
  have hnone : ∀ m, isDeclaration none t m = false := fun m => by simp [isDeclaration]
  unfold lineCalls
  cases call.occurrences t with
  | nil => rfl
  | cons m ms =>
    simp only [hnone, Bool.false_eq_true, if_false]
    split
    · -- the first call is the declaration, and what it calls is the declared name
      rename_i hdecl
      simp only [isDeclaration, Bool.and_eq_true, decide_eq_true_eq, Option.some.injEq] at hdecl
      rw [List.map_cons, List.filter_cons]
      split
      · rw [List.filter_cons_of_neg (by simp [hdecl.1])]
      · rfl
    · rfl

theorem filter_callsOn (family : Family) (name : String) (l : Line) :
    (callsOn family (some name) l).filter (· ≠ name) =
      (callsOn family none l).filter (· ≠ name) := by
  unfold callsOn
  split
  · rfl
  · exact filter_lineCalls name _

theorem filter_calls (family : Family) (name : String) (ls : List Line) :
    (calls family (some name) ls).filter (· ≠ name) =
      (calls family none ls).filter (· ≠ name) := by
  cases ls with
  | nil => rfl
  | cons l ls =>
    rw [calls, calls, Text.filter_unrepeated, Text.filter_unrepeated, List.filter_append,
      List.filter_append, filter_callsOn]

end Analysis

/-! ## Ranges -/

/-- The lines that a record counts are those from its header to the end of its extent. -/
theorem rangeOf_eq_window (file : List Line) (i extent : Nat) :
    rangeOf file (i + 1) (i + 1 + (extent + 1) - 1) = window extent (file.drop i) := by
  have hextent : i + 1 + (extent + 1) - 1 - 1 - (i + 1 - 1) = extent := by omega
  rw [rangeOf, hextent, Nat.add_sub_cancel]

/-- What the record says about its body is what the analysis of the lines says that it
counts. Its calls are those of the lines, its own name apart. -/
structure FunctionRecord.Analysed (family : Family) (content : List Char) (f : FunctionRecord) :
    Prop where
  complexity : f.complexity =
    (analyseRange family content f.line (f.line + f.lineCount - 1)).complexity
  businessLogic : f.businessLogic =
    (analyseRange family content f.line (f.line + f.lineCount - 1)).businessLogic
  errorHandling : f.errorHandling =
    (analyseRange family content f.line (f.line + f.lineCount - 1)).errorHandling
  dataFlow : f.dataFlow =
    (analyseRange family content f.line (f.line + f.lineCount - 1)).dataFlow
  performance : f.performance =
    (analyseRange family content f.line (f.line + f.lineCount - 1)).performance
  dependencies : f.dependencies.filter (· ≠ f.name) =
    (analyseRange family content f.line (f.line + f.lineCount - 1)).dependencies.filter
      (· ≠ f.name)

/-- The design pattern is that of the lines which the class counts. -/
def ClassRecord.Analysed (content : List Char) (c : ClassRecord) : Prop :=
  c.designPattern = designPatternOf (rangeOf (Text.lines content) c.line (c.line + c.lineCount - 1))

theorem analysed_functionRecord (s : Scan) (content : List Char) (head : FunctionHead)
    (i extent : Nat) (doc : Doc) (decorators : List String) :
    (functionRecord s head i extent ((Text.lines content).drop i) doc decorators).Analysed
      s.family content := by
  have hrange : analyseRange s.family content (i + 1) (i + 1 + (extent + 1) - 1) =
      analyseBody s.family none (window extent ((Text.lines content).drop i)) := by
    rw [analyseRange, rangeOf_eq_window]
  constructor
  case dependencies =>
    simp only [functionRecord, hrange]
    exact Analysis.filter_calls s.family head.name _
  all_goals
    simp only [functionRecord, hrange]
    rfl

variable {path : String} {family : Family} {content : List Char}

theorem FunctionRecord.HasOrigin.analysed {f : FunctionRecord}
    (h : f.HasOrigin path family (Text.lines content)) : f.Analysed family content := by
  obtain ⟨i, extent, head, hmade⟩ := h
  obtain ⟨doc, decorators, heq⟩ := hmade.record
  have hrecord := analysed_functionRecord { path, family } content head i extent doc decorators
  -- a record that is marked as a method is analysed as before
  rcases heq with rfl | rfl
  · exact hrecord
  · exact ⟨hrecord.complexity, hrecord.businessLogic, hrecord.errorHandling, hrecord.dataFlow,
      hrecord.performance, hrecord.dependencies⟩

theorem ClassScope.HasOrigin.analysed {c : ClassScope}
    (h : c.HasOrigin path family (Text.lines content)) : c.finish.Analysed content := by
  obtain ⟨i, head, doc, decorators, -, hopening⟩ := h.opened
  have htext : c.text = (Text.lines content).drop i := congrArg ClassOpening.text hopening
  have hbare : c.record.bare = (classRecord path head i doc decorators).bare :=
    congrArg ClassOpening.record hopening
  have hline : c.record.line = i + 1 := congrArg ClassRecord.line hbare
  rw [ClassRecord.Analysed, ClassScope.finish_line, ClassScope.finish_lineCount, hline,
    rangeOf_eq_window, ← htext]
  rfl

/-! ## Outlines -/

/-- Everything that an outline says about bodies is what an analysis of the lines that its
records count says again. -/
structure Outline.Analysed (family : Family) (content : List Char) (o : Outline) : Prop where
  functions : ∀ f ∈ o.functions, f.Analysed family content
  methods : ∀ c ∈ o.classes, ∀ f ∈ c.methods, f.Analysed family content
  classes : ∀ c ∈ o.classes, c.Analysed content

theorem Outline.analysed_build (path : String) (content : List Char) (family : Family) :
    (Outline.build path content family).Analysed family content := by
  have hholds := Outline.holds_build path content family
  have horigin : ∀ c ∈ (Outline.build path content family).classes,
      ∃ scope : ClassScope, scope.HasOrigin path family (Text.lines content) ∧
        c = scope.finish := by
    intro c hc
    obtain ⟨scope, hscope, -, -, rfl⟩ := hasOrigin_of_mem_allItems (hholds.mem_classes.mp hc)
    exact ⟨scope, hscope, rfl⟩
  constructor
  · intro f hf
    exact FunctionRecord.HasOrigin.analysed
      (hasOrigin_of_mem_allItems (hholds.mem_functions.mp hf))
  · intro c hc f hf
    obtain ⟨scope, hscope, rfl⟩ := horigin c hc
    exact (hscope.methods f hf).analysed
  · intro c hc
    obtain ⟨scope, hscope, rfl⟩ := horigin c hc
    exact hscope.analysed

end CodeAtlas
