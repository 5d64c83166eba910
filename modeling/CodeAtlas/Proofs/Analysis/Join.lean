/-
The analysis of lines one behind the other.

Apart from the pace, no analysis carries anything from one line to the next. A count of a body is
the sum over its lines, and a list is what its lines name, each once and where it first occurs. So
the analysis of `xs ++ ys` can be put together from those of `xs` and `ys` alone: counts add up, and
a list goes on behind that of `xs` with what `ys` names and `xs` does not
(`analyseBody_append`).

The verbs are recorded as one text. `listedVerbs` reads them back from it, so that the law of the
text is the law of the list.
-/
import CodeAtlas.Analysis.Body
import CodeAtlas.Proofs.Nesting.Cutting
import CodeAtlas.Proofs.Text.Unrepeated

set_option autoImplicit false

namespace CodeAtlas

/-! ## Counts and lists -/

/-- The items of the first list, and behind them those of the second that are new. -/
def Text.joined (xs ys : List String) : List String := xs ++ ys.filter (!xs.contains ·)

theorem Text.unrepeated_append_eq_joined (xs ys : List String) :
    unrepeated (xs ++ ys) = joined (unrepeated xs) (unrepeated ys) := by
  have hsplit : unrepeated (xs ++ ys) = insertAll (unrepeated xs) ys := List.foldl_append
  rw [hsplit, insertAll_eq_append, joined]

namespace Analysis

variable (family : Family) (xs ys : List Line)

theorem complexity_append :
    complexity family (xs ++ ys) - 1 = (complexity family xs - 1) + (complexity family ys - 1) := by
  simp only [complexity, List.filter_append, sumOf_append, Nat.add_sub_cancel_left]

theorem gather_append (find : Line → List String) :
    gather find (xs ++ ys) = Text.joined (gather find xs) (gather find ys) := by
  rw [gather, List.flatMap_append, Text.unrepeated_append_eq_joined]
  rfl

/-- Where nothing is declared, no line is special. -/
theorem calls_none (ls : List Line) : calls family none ls = gather (callsOn family none) ls := by
  cases ls with
  | nil => rfl
  | cons l ls => rw [calls, gather, List.flatMap_cons]

theorem calls_append : calls family none (xs ++ ys) =
    Text.joined (calls family none xs) (calls family none ys) := by
  rw [calls_none, calls_none, calls_none, gather_append]

theorem nodup_gather (find : Line → List String) (ls : List Line) : (gather find ls).Nodup :=
  Text.nodup_unrepeated _

theorem notMem_callExcludes_of_mem_callsOn {family : Family} {declared : Option String} {l : Line}
    {w : String} (h : w ∈ callsOn family declared l) : w ∉ Vocabulary.callExcludes := by
  unfold callsOn at h
  split at h
  · cases h
  · have hkept := (List.mem_filter.mp h).2
    intro hmem
    rw [List.contains_iff_mem.mpr hmem] at hkept
    cases hkept

theorem notMem_callExcludes_of_mem_calls {family : Family} {declared : Option String}
    {ls : List Line} {w : String} (h : w ∈ calls family declared ls) :
    w ∉ Vocabulary.callExcludes := by
  cases ls with
  | nil => cases h
  | cons l ls =>
    rw [calls, Text.mem_unrepeated, List.mem_append, List.mem_flatMap] at h
    rcases h with hfirst | ⟨l', -, hlater⟩
    · exact notMem_callExcludes_of_mem_callsOn hfirst
    · exact notMem_callExcludes_of_mem_callsOn hlater

theorem nodup_calls (declared : Option String) (ls : List Line) :
    (calls family declared ls).Nodup := by
  cases ls with
  | nil => exact .nil
  | cons l ls => exact Text.nodup_unrepeated _

/-! ## Verbs as a text -/

/-- The verbs that a text lists: none if it says that there is none. -/
def listedVerbs (t : String) : List String :=
  if t = Vocabulary.generalLogic then [] else (splitOuter ',' t.toList).map String.ofList

theorem mem_businessVerbs_of_mem_verbs {ls : List Line} {w : String} (h : w ∈ verbs ls) :
    w ∈ Vocabulary.businessVerbs := by
  rw [verbs, mentioned, gather, Text.mem_unrepeated, List.mem_flatMap] at h
  obtain ⟨l, -, hw⟩ := h
  exact List.mem_of_mem_filter hw

theorem isPiece_of_mem_businessVerbs :
    ∀ w ∈ Vocabulary.businessVerbs, IsPiece w.toList := by
  decide +kernel

/-- Verbs that were joined are cut apart again. -/
theorem splitOuter_intercalate_verbs (ls : List Line) :
    (splitOuter ',' (", ".intercalate (verbs ls)).toList).map String.ofList = verbs ls := by
  have hpieces : ∀ t ∈ (verbs ls).map String.toList, IsPiece t := by
    intro t ht
    obtain ⟨w, hw, rfl⟩ := List.mem_map.mp ht
    exact isPiece_of_mem_businessVerbs w (mem_businessVerbs_of_mem_verbs hw)
  have hsplit := splitOuter_listed (g := []) hpieces rfl
  rw [List.append_nil] at hsplit
  rw [String.toList_intercalate]
  show (splitOuter ',' (listed _)).map String.ofList = _
  rw [hsplit, List.map_map]
  exact List.map_id'' (fun _ => String.ofList_toList) _

/-- The text of the verbs says which they are. -/
theorem listedVerbs_businessLogic (ls : List Line) : listedVerbs (businessLogic ls) = verbs ls := by
  have hsplit := splitOuter_intercalate_verbs ls
  rw [businessLogic, listedVerbs]
  by_cases hnone : (verbs ls).isEmpty = true
  · rw [if_pos hnone, if_pos rfl, List.isEmpty_iff.mp hnone]
  · rw [if_neg hnone]
    have hsome : ", ".intercalate (verbs ls) ≠ Vocabulary.generalLogic := by
      intro hgeneral
      -- no verb is called like the text that stands for none
      rw [hgeneral] at hsplit
      have hcut : (splitOuter ',' Vocabulary.generalLogic.toList).map String.ofList =
          [Vocabulary.generalLogic] := by
        decide
      have hmem : Vocabulary.generalLogic ∈ verbs ls := by
        rw [← hsplit, hcut]
        exact List.mem_singleton_self _
      exact absurd (mem_businessVerbs_of_mem_verbs hmem) (by decide)
    rw [if_neg hsome, hsplit]

end Analysis

/-! ## Bodies -/

open Analysis

namespace BodyAnalysis

/-- The lists of an analysis, the pace apart: what is called, the four lists of errors, the five of
data, and the verbs. -/
def lists (a : BodyAnalysis) : List (List String) :=
  [a.dependencies, a.errorHandling.errorTypes, a.errorHandling.errorMessages,
    a.errorHandling.fallbacks, a.errorHandling.logging, a.dataFlow.inputs, a.dataFlow.outputs,
    a.dataFlow.transformations, a.dataFlow.sideEffects, a.dataFlow.structures,
    listedVerbs a.businessLogic]

/-- The third analysis is put together from the first two: what they count is added up, and the
lists of the first one go on with what is new in those of the second. -/
structure IsJoin (a b c : BodyAnalysis) : Prop where
  complexity : c.complexity - 1 = (a.complexity - 1) + (b.complexity - 1)
  tryBlocks :
    c.errorHandling.tryBlocks = a.errorHandling.tryBlocks + b.errorHandling.tryBlocks
  lists : c.lists = List.zipWith Text.joined a.lists b.lists

/-- Complexity begins with one, no list names anything twice, and no keyword is called. -/
structure IsExact (a : BodyAnalysis) : Prop where
  complexity : 1 ≤ a.complexity
  nodup : ∀ names ∈ a.lists, names.Nodup
  called : ∀ w ∈ a.dependencies, w ∉ Vocabulary.callExcludes

theorem isExact_analyseBody (family : Family) (declared : Option String) (ls : List Line) :
    (analyseBody family declared ls).IsExact where
  complexity := Nat.le_add_right 1 _
  nodup := by
    simp only [lists, List.forall_mem_cons, analyseBody, Analysis.errorHandling,
      Analysis.dataFlow, mentioned, listedVerbs_businessLogic, verbs, nodup_calls, nodup_gather,
      true_and]
    exact List.forall_mem_nil _
  called _ := notMem_callExcludes_of_mem_calls

end BodyAnalysis

/-- Each analysis but that of the pace can be made of a body in two halves: it is that of the first
half, to which that of the second is added. In each of its lists everything is named once, and
keywords are never called. -/
theorem analyseBody_append (family : Family) :
    (∀ xs ys : List Line,
      (analyseBody family none xs).IsJoin (analyseBody family none ys)
        (analyseBody family none (xs ++ ys))) ∧
      ∀ ls : List Line, (analyseBody family none ls).IsExact := by
  refine ⟨fun xs ys => ⟨complexity_append family xs ys, ?_, ?_⟩,
    BodyAnalysis.isExact_analyseBody family none⟩
  · simp only [analyseBody, errorHandling, List.filter_append, List.map_append,
      List.length_append]
  · simp only [BodyAnalysis.lists, analyseBody, errorHandling, dataFlow, mentioned,
      listedVerbs_businessLogic, verbs, List.filter_append, List.map_append, gather_append,
      calls_append, List.zipWith_cons_cons, List.zipWith_nil_right]

end CodeAtlas
