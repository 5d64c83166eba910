/-
How far functions and methods of the brace family reach.

A record of a function is made from its header and from the lines that it reaches over,
and nothing done later changes it. So every record in the outline can be traced back to
the line of its header and to the extent that was found from there (`FunctionAt`,
`MethodAt`), and what `Extent.Return` says about one block is a law about outlines.

The law has an exception. A header that spans several lines and has brackets among its
parameters may end the block before its body: `lineCount_defaultParameter`.
-/
import CodeAtlas.Proofs.Extent.Return
import CodeAtlas.Proofs.Scan.Progress

set_option autoImplicit false

namespace CodeAtlas.Brace

/-! ## Where a record comes from -/

section

variable (path : String) (file : List Line)

/-- The record is that of the function whose header the scan finds on line `i`, and reaches
over `extent` further lines. -/
def FunctionAt (r : FunctionRecord) (i : Nat) (head : FunctionHead) (extent : Nat) : Prop :=
  (∃ name, firstHit outside (file.drop i) = some (name, .function head)) ∧
    ∃ doc decorators, r =
      functionRecord { path, family := .brace } head i extent (file.drop i) doc decorators

/-- The record is that of the method whose header the scan finds on line `i`, and reaches
over `extent` further lines. -/
def MethodAt (r : FunctionRecord) (i : Nat) (head : FunctionHead) (extent : Nat) : Prop :=
  (∃ name, firstHit inside (file.drop i) = some (name, .method head)) ∧
    ∃ doc decorators, r =
      functionRecord { path, family := .brace } head i extent (file.drop i) doc decorators

/-- The records are those of methods between two lines of a class, none of which reaches
behind the second line. -/
def MethodsBetween (start stop : Nat) (methods : List FunctionRecord) : Prop :=
  ∀ f ∈ methods, ∃ i head, start < i ∧ i < stop ∧
    MethodAt path file f i head (min (blockExtent head.further (file.drop i)) (stop - i))

/-- The item, if it is a function or a class, is traced back to its lines. -/
def Traced : Item → Prop
  | .function r => ∃ i head, i < file.length ∧
      FunctionAt path file r i head (bodyExtent head (file.drop i))
  | .classItem c => ∃ start stop, c.line = start + 1 ∧ c.lineCount = stop - start + 1 ∧
      start ≤ stop ∧ stop < file.length ∧ MethodsBetween path file start stop c.methods
  | _ => True

/-- At a moment everything recorded is traced back to its lines, and so are the methods of
the class that is open. -/
structure AllTraced (m : Moment) : Prop where
  items : ∀ item ∈ m.items, Traced path file item
  scope : ∀ c, m.scan.scope = some c → c.record.line = c.start + 1 ∧
    MethodsBetween path file c.start c.stop c.record.methods

end

variable {path : String} {file : List Line} {m : Moment}

theorem traced_of_mem_exportItems {at_ : Nat} {ls : List Line} {item : Item}
    (h : item ∈ exportItems at_ ls) : Traced path file item := by
  obtain ⟨r, -, rfl⟩ := List.mem_map.mp h
  trivial

/-- What a line declares is traced back to that line. -/
theorem Declares.traced {s : Scan} {i further : Nat} {items : List Item}
    (h : Declares s i (file.drop i) items further) (hs : s.path = path ∧ s.family = .brace)
    (hlt : i < file.length) : ∀ item ∈ items, Traced path file item := by
  obtain ⟨rfl, hfamily⟩ := hs
  intro item hitem
  cases h with
  | nothing => simp at hitem
  | imports =>
    obtain ⟨r, -, rfl⟩ := List.mem_map.mp hitem
    trivial
  | interface | type | constant =>
    rw [List.mem_singleton.mp hitem]
    trivial
  | function hit =>
    rw [List.mem_singleton.mp hitem]
    refine ⟨i, _, hlt, ⟨_, hit⟩, s.pending.docNow, s.pending.decorators, ?_⟩
    simp only [functionRecord, hfamily]

/-- A class that is closed is traced back if its methods are. -/
theorem traced_closed {c : ClassScope} {index : Nat} (hline : c.record.line = c.start + 1)
    (hfile : c.InFile file index)
    (hmethods : MethodsBetween path file c.start c.stop c.record.methods) :
    Traced path file (.closed c) :=
  ⟨c.start, c.stop, hline, rfl, hfile.kept, hfile.ends, hmethods⟩

/-- The methods of a class stay traced back when a line of the class is handled. -/
theorem InsideCase.methodsBetween {s s' : Scan} {c c' : ClassScope} {i further : Nat}
    (h : InsideCase s c i (file.drop i) (s', c', further))
    (hs : s.path = path ∧ s.family = .brace) (hbegun : c.start < i)
    (hold : MethodsBetween path file c.start c.stop c.record.methods) :
    MethodsBetween path file c.start c.stop c'.record.methods := by
  obtain ⟨rfl, hfamily⟩ := hs
  rcases h.methods with hsame | ⟨name, head, hstop, hit, hextent, hmore⟩
  · rwa [hsame]
  · rw [hmore, hextent]
    refine List.forall_mem_append.mpr ⟨hold, List.forall_mem_singleton.mpr ?_⟩
    refine ⟨i, head, hbegun, hstop, ⟨name, hit⟩, s.pending.docNow, s.pending.decorators, ?_⟩
    simp only [functionRecord, hfamily]

/-- What a call records or leaves open is traced back to its lines. -/
theorem callObeys_traced (h : Moment.Reached file (.start path .brace) m)
    (hlt : m.index < file.length) :
    CallObeys file m (Traced path file) fun c => c.record.line = c.start + 1 ∧
      MethodsBetween path file c.start c.stop c.record.methods where
  exports _ hitem := traced_of_mem_exportItems hitem
  declares hdecl := hdecl.traced (sameFile_of_reached h) hlt
  opens _ := ⟨rfl, fun f hf => by simp [openedScope, classRecord] at hf⟩
  fills hsome hcase hold := by
    -- a line of the class moves neither end of it
    obtain ⟨hstart, hstop, hline, -, -⟩ := hcase.frame (Moment.drop_ne_nil hlt)
    rw [hstart, hstop, hline]
    have hbegun := (h.classInFile _ hsome).begun
    exact ⟨hold.1, hcase.methodsBetween (sameFile_of_reached h) hbegun hold.2⟩

/-- At every moment everything recorded is traced back to its lines. -/
theorem allTraced_of_reached (h : Moment.Reached file (.start path .brace) m) :
    AllTraced path file m := by
  obtain ⟨hitems, hscope⟩ := CallObeys.reached callObeys_traced
    (fun hfile hc => traced_closed hc.1 hfile hc.2) h
  exact ⟨hitems, hscope⟩

/-- All that an outline holds is traced back to its lines, a class that the end of the file
closed included. -/
theorem traced_of_mem_allItems {item : Item}
    (hitem : item ∈ (Moment.last path .brace file).allItems) : Traced path file item := by
  have hreached := Moment.reached_last path .brace file
  have htraced := allTraced_of_reached hreached
  rcases List.mem_append.mp hitem with hold | hopen
  · exact htraced.items item hold
  · obtain ⟨c, hc, rfl⟩ := Option.map_eq_some_iff.mp (Option.mem_toList.mp hopen)
    obtain ⟨hline, hmethods⟩ := htraced.scope c hc
    exact traced_closed hline (hreached.classInFile c hc) hmethods

/-! ## Bodies in outlines -/

/-- What is true of an extent that was found from a header which takes `further` lines more
and opens a body, where `clip` is the last line that the extent may have: it ends with the
block unless the reader stopped early, and then it ends with the header. -/
structure BlockRule (further clip : Nat) (ls : List Line) (extent : Nat) : Prop where
  endsWithBlock : EndsWithBlock further clip ls extent ↔
    ¬ StopsEarly further ls ∨ netDelta (window further ls) ≤ 0 ∨ clip ≤ further
  endsWithHeader : StopsEarly further ls → extent = min further clip

theorem blockRule {further clip : Nat} {ls : List Line} (hlt : further < ls.length)
    (hnear : further ≤ maxLookahead) (hopens : OpensBody further ls) (hclip : clip < ls.length) :
    BlockRule further clip ls (min (blockExtent further ls) clip) := by
  refine ⟨endsWithBlock_iff hlt hnear hopens hclip, fun hearly => ?_⟩
  rcases blockExtent_eq_or_isBlockEnd hlt hnear hopens with ⟨-, heq⟩ | ⟨hgoes, -⟩
  · rw [heq]
  · exact absurd hearly hgoes

/-- Each function of an outline that has a block, and each method, reaches from its header
to the end of its block, a method at most to the last line of its class, if and only if
the reader of blocks did not stop in front of the last line of the header, or the block
ends on that line. Where the reader stopped early the record ends with the header. -/
theorem extent_endsWithBlock_iff (path : String) (content : List Char) :
    (∀ r ∈ (Outline.build path content .brace).functions, ∃ i head extent,
      i < (Text.lines content).length ∧ FunctionAt path (Text.lines content) r i head extent ∧
      (head.body = .block → OpensBody head.further ((Text.lines content).drop i) →
        BlockRule head.further ((Text.lines content).length - 1 - i)
          ((Text.lines content).drop i) extent)) ∧
    ∀ c ∈ (Outline.build path content .brace).classes, ∀ f ∈ c.methods, ∃ i head extent,
      c.line ≤ i ∧ i + 2 < c.line + c.lineCount ∧
      MethodAt path (Text.lines content) f i head extent ∧
      (OpensBody head.further ((Text.lines content).drop i) →
        BlockRule head.further (c.line + c.lineCount - 2 - i)
          ((Text.lines content).drop i) extent) := by
  have hholds := Outline.holds_build path content .brace
  generalize Text.lines content = file at hholds ⊢
  constructor
  · intro r hr
    have htraced : Traced path file (.function r) :=
      traced_of_mem_allItems (hholds.mem_functions.mp hr)
    obtain ⟨i, head, hlt, hat⟩ := htraced
    refine ⟨i, head, _, hlt, hat, fun hblock hopens => ?_⟩
    obtain ⟨⟨name, hit⟩, -⟩ := hat
    obtain ⟨hnear, hhead⟩ := (isLocal_of_outside hit).further_bounds rfl (Moment.drop_ne_nil hlt)
    have hlen : (file.drop i).length = file.length - i := List.length_drop
    have hclip : file.length - 1 - i < (file.drop i).length := by omega
    have hrule := blockRule hhead hnear hopens hclip
    -- outside classes the last line of the file clips nothing
    have hbound := (blockExtent_bounds hhead).2
    rw [Nat.min_eq_left (by omega)] at hrule
    rw [bodyExtent, hblock]
    exact hrule
  · intro c hc f hf
    have htraced : Traced path file (.classItem c) :=
      traced_of_mem_allItems (hholds.mem_classes.mp hc)
    obtain ⟨start, stop, hline, hcount, hkept, hends, hmethods⟩ := htraced
    obtain ⟨i, head, hbegun, hstop, hat⟩ := hmethods f hf
    refine ⟨i, head, _, by omega, by omega, hat, fun hopens => ?_⟩
    obtain ⟨⟨name, hit⟩, -⟩ := hat
    have hlt : i < file.length := by omega
    obtain ⟨hnear, hhead⟩ := (isLocal_of_inside hit).further_bounds rfl (Moment.drop_ne_nil hlt)
    have hlen : (file.drop i).length = file.length - i := List.length_drop
    have hclip : c.line + c.lineCount - 2 - i = stop - i := by omega
    rw [hclip]
    exact blockRule hhead hnear hopens (by omega)

/-- A function whose first parameter has a default value in brackets. -/
def defaultParameter : List Char :=
  "function f(\n  a = \x7b\x7d,\n  b\n) \x7b\n  if (a) \x7b g(b); \x7d\n\x7d\n".toList

/-- Its block ends on the last of the six lines, but the brackets of the default value are
closed on their own line: the record has the four lines of the header. -/
theorem lineCount_defaultParameter :
    let ls := Text.lines defaultParameter
    (Outline.build "a.ts" defaultParameter .brace).functions.map (fun r => (r.line, r.lineCount))
        = [(1, 4)] ∧
      OpensBody 3 ls ∧ IsBlockEnd 0 3 ls 5 := by
  refine ⟨by decide +kernel, by unfold OpensBody; decide +kernel, ?_⟩
  refine ⟨by decide, by decide +kernel, fun j hfrom hto => ?_, .inl (by decide +kernel)⟩
  obtain rfl | rfl : j = 3 ∨ j = 4 := by omega
  · decide +kernel
  · decide +kernel

end CodeAtlas.Brace
