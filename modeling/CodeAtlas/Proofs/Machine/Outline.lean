/-
Outlines in 32 bits.

A file of fewer than `2 ^ 31` bytes has room for all that is counted while its outline is built
(`Machine.Exact`): the brackets of its lines and of any run of them, the accounts that the scan
keeps, the balances and depths in the texts that are joined and cut, the complexities of bodies and
their sum. The checked operations answer there, and what they answer are the exact numbers.

Bounds on single texts are bounds by what they were taken from. The accounts have theirs from an
invariant of the scan, and the sum of complexities from the lines of functions and methods, which
do not overlap in either family (`apart_callables`).
-/
import CodeAtlas.Proofs.Machine.Complexity
import CodeAtlas.Proofs.Machine.Depth

set_option autoImplicit false

namespace CodeAtlas

variable {path : String} {family : Family} {content : List Char} {file : List Line} {o : Outline}

/-! ## Functions and methods -/

/-- In a tiled outline functions and methods do not overlap: methods lie in their classes. -/
theorem Outline.Tiled.apart (h : o.Tiled) :
    (o.functions ++ o.methods).Pairwise fun f g => Disjoint f.lines g.lines := by
  obtain ⟨hfunctions, hclasses, hbetween⟩ := List.pairwise_append.mp h.disjoint
  rw [List.pairwise_map] at hfunctions hclasses
  have hinside : ∀ c ∈ o.classes, ∀ f ∈ c.methods, f.lines ⊆ c.lines :=
    fun c hc f hf => ((h.methods c hc).1 f hf).2.2
  refine List.pairwise_append.mpr ⟨hfunctions, List.pairwise_flatMap.mpr ⟨?_, ?_⟩, ?_⟩
  · exact fun c hc => (h.methods c hc).2.imp And.left
  · refine hclasses.imp_of_mem fun {c d} hc hd hdisjoint f hf g hg => ?_
    exact hdisjoint.mono (hinside c hc f hf) (hinside d hd g hg)
  · intro f hf g hg
    obtain ⟨c, hc, hmem⟩ := List.mem_flatMap.mp hg
    have hdisjoint := hbetween _ (List.mem_map_of_mem hf) _ (List.mem_map_of_mem hc)
    exact hdisjoint.mono_right (hinside c hc g hmem)

/-- Functions and methods of a file do not overlap. -/
theorem apart_callables (path : String) (content : List Char) (family : Family) :
    ((Outline.build path content family).functions ++
      (Outline.build path content family).methods).Pairwise
      fun f g => Disjoint f.lines g.lines := by
  have hholds := Outline.holds_build path content family
  have hcount := Outline.lineCount_build path content family
  cases family with
  | brace =>
    have hrecorded := Brace.recorded_allItems path (Text.lines content)
    exact (hholds.tiled hrecorded.ordered (hcount ▸ hrecorded.inFile)).apart
  | indent => exact (hholds.stacked (Indent.inOrder_allItems path _) hcount).callables

/-- Every function and method pays for its complexity with its lines. -/
theorem paid_callables (path : String) (content : List Char) (family : Family) :
    ∀ f ∈ (Outline.build path content family).functions ++
      (Outline.build path content family).methods, f.Paid (Text.lines content) := by
  intro f hf
  exact (hasOrigin_callables path content family f hf).paid

/-! ## The sum -/

namespace Machine

/-- The complexities of the functions and those of the methods, added up and then added. -/
def totalComplexity? (o : Outline) : Option Nat := do
  word? ((← addWords? (fun f => some f.complexity) 0 o.functions) +
    (← addWords? (fun f => some f.complexity) 0 o.methods))

theorem totalComplexity?_eq (h : o.totalComplexity < 2 ^ 32) :
    totalComplexity? o = some o.totalComplexity := by
  rw [Outline.totalComplexity] at h
  have hfunctions : addWords? (fun f => some f.complexity) 0 o.functions =
      some (0 + sumOf (·.complexity) o.functions) := addWords?_eq (fun f _ => rfl) (by omega)
  have hmethods : addWords? (fun f => some f.complexity) 0 o.methods =
      some (0 + sumOf (·.complexity) o.methods) := addWords?_eq (fun f _ => rfl) (by omega)
  simp only [totalComplexity?, hfunctions, hmethods, Nat.zero_add, Option.bind_eq_bind,
    Option.bind_some]
  exact word?_of_lt h

end Machine

/-- The complexities of a file that fits add up to a number that fits. -/
theorem totalComplexity_lt (hroom : room (Text.lines content) ≤ 2 ^ 31) :
    (Outline.build path content family).totalComplexity < 2 ^ 32 := by
  have hsum := complexities_le (paid_callables path content family)
    (apart_callables path content family)
  have hshare := Analysis.share_le (Text.lines content)
  rw [sumOf_append] at hsum
  rw [Outline.totalComplexity]
  omega

/-! ## Outlines -/

namespace Machine

/-- All that is computed in 32 bits for the outline of the file is computed exactly. -/
structure Exact (path : String) (family : Family) (file : List Line) (o : Outline) : Prop where
  complexity : ∀ i extent, complexity? family (window extent (file.drop i)) =
    some (Analysis.complexity family (window extent (file.drop i)))
  braceDelta : ∀ l ∈ file, braceDelta? l = some (CodeAtlas.braceDelta l)
  netDelta : ∀ i further, netDelta? (window further (file.drop i)) =
    some (CodeAtlas.netDelta (window further (file.drop i)))
  /-- whatever lines a call passes outside classes -/
  scanDepth : family = .brace → ∀ m, Moment.Reached file (.start path family) m → ∀ further,
    depthBehind? m.scan.depth (window further (file.drop m.index)) =
      some (max (m.scan.depth + CodeAtlas.netDelta (window further (file.drop m.index))) 0)
  /-- whatever lines a call passes inside a class -/
  classDepth : family = .brace → ∀ m, Moment.Reached file (.start path family) m →
    ∀ c, m.scan.scope = some c → ∀ further,
      depthBehind? c.depth (window further (file.drop m.index)) =
        some (max (c.depth + CodeAtlas.netDelta (window further (file.drop m.index))) 0)
  signatures : ∀ i, joinSignature? (file.drop i) = some (joinSignature (file.drop i))
  statements : ∀ i, joinBrackets? (file.drop i) = some (Indent.joinBrackets (file.drop i))
  lists : ∀ i t, ListText (file.drop i) t → splitOuter? ',' t = some (splitOuter ',' t)
  entries : ∀ i t sep, EntryText (file.drop i) t → cutOuter?? sep t = some (cutOuter? sep t)
  positive : (∀ f ∈ o.functions ++ o.methods, 1 ≤ f.complexity) ∧
    ∀ r ∈ o.interfaces, ∀ f ∈ r.methods, 1 ≤ f.complexity
  total : totalComplexity? o = some o.complexity ∧
    o.complexity = sumOf (·.complexity) o.functions + sumOf (·.complexity) o.methods

/-- What is computed for a file of fewer than `2 ^ 31` bytes fits into 32 bits. -/
theorem exact_build (path : String) (family : Family) (content : List Char)
    (h : Text.byteLength content < 2 ^ 31) :
    Exact path family (Text.lines content) (Outline.build path content family) := by
  -- a line takes a byte for each character, and one more for its line feed
  have hroom : room (Text.lines content) ≤ 2 ^ 31 := by
    have hbytes := Text.length_le_byteLength content
    have hlines := Text.room_lines_le content
    omega
  have hdrop : ∀ i, room ((Text.lines content).drop i) ≤ 2 ^ 31 :=
    fun i => (room_drop_le i _).trans hroom
  have hwindow : ∀ i extent, room (window extent ((Text.lines content).drop i)) ≤ 2 ^ 31 :=
    fun i extent => (sumOf_le_of_sublist _ (List.take_sublist _ _)).trans (hdrop i)
  have hsum := sumOf_length_lt hroom (by decide)
  have hpaid := paid_callables path content family
  refine ⟨fun i extent => complexity?_eq family (hwindow i extent), fun l hl => ?_,
    fun i further => netDelta?_eq ?_, ?_, ?_, fun i => joinSignature?_eq (hdrop i),
    fun i => joinBrackets?_eq (hdrop i), fun i t ht => splitOuter?_eq ',' ?_,
    fun i t sep ht => cutOuter??_eq sep ?_, ⟨fun f hf => (hpaid f hf).positive, ?_⟩, ?_, rfl⟩
  · have hle := sumOf_le_of_sublist List.length (List.singleton_sublist.mpr hl)
    rw [sumOf_cons, sumOf_nil] at hle
    exact braceDelta?_eq (by omega)
  · have hsub : (window further ((Text.lines content).drop i)).Sublist (Text.lines content) :=
      (List.take_sublist _ _).trans (List.drop_sublist _ _)
    exact Nat.lt_of_le_of_lt (sumOf_le_of_sublist _ hsub) hsum
  · rintro rfl m hreached further
    exact depthBehind?_of_within (Brace.counted_of_reached hreached).scan hsum further
  · rintro rfl m hreached c hc further
    exact depthBehind?_of_within ((Brace.counted_of_reached hreached).scope c hc) hsum further
  · exact ht.length_lt (hdrop i) (by decide)
  · exact ht.length_lt (hdrop i) (by decide)
  · exact fun r hr f hf => (bodiless_of_mem_interfaces hr hf).complexity.ge
  · exact totalComplexity?_eq (totalComplexity_lt hroom)

/-- A method with one decision and a function with two. -/
def decidesThrice : List Char :=
  ("class A \x7b\n  m(x) \x7b return x && m(x - 1); \x7d\n\x7d\n" ++
    "function f(n) \x7b\n  if (n) \x7b for (;;) \x7b \x7d \x7d\n\x7d\n").toList

theorem exact_decidesThrice :
    Text.byteLength decidesThrice < 2 ^ 31 ∧
      (Outline.build "a.ts" decidesThrice .brace).complexity = 5 ∧
      Exact "a.ts" .brace (Text.lines decidesThrice) (Outline.build "a.ts" decidesThrice .brace) := by
  have hbytes : Text.byteLength decidesThrice < 2 ^ 31 := by decide +kernel
  exact ⟨hbytes, by decide +kernel, exact_build "a.ts" .brace decidesThrice hbytes⟩

end Machine

end CodeAtlas
