/-
The analysis of lines with other blanks in front.

Most of an analysis reads trimmed lines. Two parts do not. The words of a body are looked
for in lines as they stand, which is no difference for words that begin with no blank. And
loops are nested by their indentation: the loops that are open stand at changed
indentations, but as deep inside each other as before (`widen`).
-/
import CodeAtlas.Analysis.Body
import CodeAtlas.Proofs.Text.Reindent

set_option autoImplicit false

namespace CodeAtlas

open Analysis

/-! ## The vocabulary -/

theorem isCompact_of_mem_words {vocabulary : List String}
    (h : vocabulary ∈ [Vocabulary.businessVerbs, Vocabulary.inputWords, Vocabulary.outputWords,
      Vocabulary.transformWords, Vocabulary.sideEffectWords, Vocabulary.structureWords]) :
    ∀ w ∈ vocabulary, Text.isCompact w = true := by
  revert vocabulary
  decide +kernel

theorem isCompact_of_mem_designPatterns :
    ∀ row ∈ Vocabulary.designPatterns, ∀ w ∈ row.1, Text.isCompact w = true := by
  decide +kernel

/-! ## Words in two texts -/

namespace Text

variable {p : String → Prop} {s t : List Char} (h : ∀ w, p w → has w s = has w t)
include h

theorem hasAny_eq {needles : List String} (hneedles : ∀ w ∈ needles, p w) :
    hasAny needles s = hasAny needles t := by
  rw [hasAny, hasAny, Bool.eq_iff_iff, List.any_eq_true, List.any_eq_true]
  refine exists_congr fun w => and_congr_right fun hw => ?_
  rw [h w (hneedles w hw)]

/-- A table of words has the same first hit in both texts. -/
theorem find?_hasAny_eq {α : Type} {table : List (List String × α)}
    (htable : ∀ row ∈ table, ∀ w ∈ row.1, p w) :
    (table.find? fun row => hasAny row.1 s) = table.find? fun row => hasAny row.1 t := by
  induction table with
  | nil => rfl
  | cons row table ih =>
    obtain ⟨hrow, htable⟩ := List.forall_mem_cons.mp htable
    rw [List.find?_cons, List.find?_cons, hasAny_eq h hrow, ih htable]

end Text

/-! ## Loops -/

namespace Analysis.PaceState

/-- The state with the indentations of the open loops changed. -/
def widen (width : Nat → Nat) (s : PaceState) : PaceState :=
  { s with openLoops := s.openLoops.map width }

variable (width : Nat → Nat) (s : PaceState)

theorem note_widen (b : Bool) (mark : String) :
    (s.widen width).note b mark = (s.note b mark).widen width := by
  cases b <;> rfl

theorem waiting_widen (low : List Char) :
    (s.widen width).waiting low = (s.waiting low).widen width := by
  simp only [waiting]
  by_cases hwaits : Text.has "await " low = true
  · rw [if_pos hwaits, if_pos hwaits, ← note_widen]
    rfl
  · rw [if_neg hwaits, if_neg hwaits]
    rfl

theorem loops_widen (hwidth : StrictMono width) (indent : Nat) (t : List Char) :
    (s.widen width).loops (width indent) t = (s.loops indent t).widen width := by
  have hopen : (s.openLoops.map width).filter (· < width indent) =
      (s.openLoops.filter (· < indent)).map width := by
    rw [List.filter_map]
    congr 1
    refine List.filter_congr fun n _ => ?_
    simp only [Function.comp_apply, hwidth.lt_iff_lt]
  have hnested : ((s.openLoops.filter (· < indent)).map width).isEmpty =
      (s.openLoops.filter (· < indent)).isEmpty := List.isEmpty_map
  have hstate : ({ s.widen width with openLoops :=
        (s.openLoops.filter (· < indent)).map width } : PaceState) =
      { s with openLoops := s.openLoops.filter (· < indent) }.widen width := rfl
  simp only [loops]
  rw [show (s.widen width).openLoops = s.openLoops.map width from rfl, hopen, hnested, hstate]
  by_cases hnone : loopWord.count t = 0
  · rw [if_pos hnone, if_pos hnone]
  · rw [if_neg hnone, if_neg hnone, note_widen]
    rfl

end Analysis.PaceState

/-! ## Bodies -/

namespace Reindents

variable {line : Line → Line} {width : Nat → Nat} (h : Reindents line width)
include h

theorem isSignificant (family : Family) (l : Line) :
    Analysis.isSignificant family (line l) = Analysis.isSignificant family l := by
  rw [Analysis.isSignificant, Analysis.isSignificant, h.isBlank, h.trim]

theorem filter_isSignificant (family : Family) (ls : List Line) :
    (ls.map line).filter (Analysis.isSignificant family) =
      (ls.filter (Analysis.isSignificant family)).map line := by
  rw [List.filter_map]
  exact congrArg (fun p => (ls.filter p).map line) (funext (h.isSignificant family))

theorem map_trim (ls : List Line) : (ls.map line).map Text.trim = ls.map Text.trim := by
  rw [List.map_map]
  exact congrArg ls.map (funext h.trim)

theorem complexity (family : Family) (ls : List Line) :
    Analysis.complexity family (ls.map line) = Analysis.complexity family ls := by
  rw [Analysis.complexity, h.filter_isSignificant, sumOf_map, Analysis.complexity]
  simp only [h.trim]

theorem callsOn (family : Family) (declared : Option String) (l : Line) :
    Analysis.callsOn family declared (line l) = Analysis.callsOn family declared l := by
  rw [Analysis.callsOn, Analysis.callsOn, h.trim]

theorem calls (family : Family) (declared : Option String) (ls : List Line) :
    Analysis.calls family declared (ls.map line) = Analysis.calls family declared ls := by
  cases ls with
  | nil => rfl
  | cons l ls =>
    rw [List.map_cons, Analysis.calls, Analysis.calls, h.callsOn, List.flatMap_map]
    exact congrArg (fun find => Text.unrepeated (Analysis.callsOn family declared l ++
      ls.flatMap find)) (funext (h.callsOn family none))

theorem mentioned (ls : List Line) (vocabulary : List String)
    (hwords : ∀ w ∈ vocabulary, Text.isCompact w = true) :
    Analysis.mentioned vocabulary (ls.map line) = Analysis.mentioned vocabulary ls := by
  rw [Analysis.mentioned, Analysis.mentioned, gather, gather, List.flatMap_map]
  refine congrArg (fun find => Text.unrepeated (ls.flatMap find)) (funext fun l => ?_)
  exact List.filter_congr fun w hw => h.has_lower (hwords w hw) l

theorem businessLogic (ls : List Line) :
    Analysis.businessLogic (ls.map line) = Analysis.businessLogic ls := by
  have hverbs := h.mentioned ls Vocabulary.businessVerbs (isCompact_of_mem_words (by simp))
  rw [Analysis.businessLogic, verbs, hverbs, Analysis.businessLogic, verbs]

theorem dataFlow (ls : List Line) : Analysis.dataFlow (ls.map line) = Analysis.dataFlow ls := by
  have hmentioned := h.mentioned ls
  rw [Analysis.dataFlow, Analysis.dataFlow,
    hmentioned Vocabulary.inputWords (isCompact_of_mem_words (by simp)),
    hmentioned Vocabulary.outputWords (isCompact_of_mem_words (by simp)),
    hmentioned Vocabulary.transformWords (isCompact_of_mem_words (by simp)),
    hmentioned Vocabulary.sideEffectWords (isCompact_of_mem_words (by simp)),
    hmentioned Vocabulary.structureWords (isCompact_of_mem_words (by simp))]

theorem errorHandling (family : Family) (ls : List Line) :
    Analysis.errorHandling family (ls.map line) = Analysis.errorHandling family ls := by
  simp only [Analysis.errorHandling, h.filter_isSignificant, h.map_trim]

/-- What a line says about the pace is what the changed line says, at another indentation. -/
theorem paceLine (s : PaceState) (l : Line) :
    (s.widen width).line (line l) = (s.line l).widen width := by
  simp only [PaceState.line, h.trim, h.indentation, s.loops_widen width h.strictMono,
    PaceState.waiting_widen]
  rfl

theorem performance (family : Family) (ls : List Line) :
    Analysis.performance family (ls.map line) = Analysis.performance family ls := by
  have hpace : (ls.filter (Analysis.isSignificant family)).foldl (fun s l => s.line (line l))
      (PaceState.widen width {}) = _ := List.foldl_hom (PaceState.widen width) h.paceLine
  have hfound := congrArg PaceState.found hpace
  rw [Analysis.performance, h.filter_isSignificant, List.foldl_map]
  exact hfound

theorem analyseBody (family : Family) (declared : Option String) (ls : List Line) :
    CodeAtlas.analyseBody family declared (ls.map line) =
      CodeAtlas.analyseBody family declared ls := by
  simp only [CodeAtlas.analyseBody, h.complexity, h.calls, h.businessLogic, h.errorHandling,
    h.dataFlow, h.performance]

theorem designPatternOf (ls : List Line) :
    CodeAtlas.designPatternOf (ls.map line) = CodeAtlas.designPatternOf ls := by
  have hwords : ∀ w, Text.isCompact w = true →
      Text.has w (Text.lower (['\n'].intercalate (ls.map line))) =
        Text.has w (Text.lower (['\n'].intercalate ls)) :=
    fun w hw => h.has_lower_intercalate hw ls
  simp only [CodeAtlas.designPatternOf, hwords "instance" (by decide),
    hwords "static" (by decide), Text.find?_hasAny_eq hwords isCompact_of_mem_designPatterns]

end Reindents

end CodeAtlas
