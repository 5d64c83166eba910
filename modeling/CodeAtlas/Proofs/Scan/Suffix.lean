/-
A scan begins anew wherever nothing is open.

A scan that has come to a line with no class open, at depth zero and with nothing pending
is in the state of a new scan (`Clean.eq_new`). What it records from there on is therefore
what a scan of the remaining lines alone records, moved down by the lines in front. So a
file is the concatenation of its parts: each list of its outline is what was recorded in
front of the line, followed by the list of the remaining file, with that many lines more in
every line number. Blank lines in front of a file move everything down and do nothing else.
-/
import CodeAtlas.Proofs.Scan.Progress
import CodeAtlas.Proofs.Scan.Transport
import CodeAtlas.Proofs.Text.Lines

set_option autoImplicit false

namespace CodeAtlas

/-! ## Clean states -/

/-- Nothing is open, and nothing waits for the next declaration. -/
structure Scan.Clean (s : Scan) : Prop where
  noClass : s.scope = none
  depth : s.depth = 0
  noDocLines : s.pending.doc.back = []
  docClosed : s.pending.doc.isOpen = false
  noDecorators : s.pending.back = []
  noComment : s.inComment = false

theorem Scan.Clean.eq_new {s : Scan} (h : s.Clean) :
    s = { path := s.path, family := s.family } := by
  obtain ⟨path, family, scope, ⟨⟨back, isOpen⟩, decorators⟩, depth, inComment⟩ := s
  obtain ⟨rfl, rfl, rfl, rfl, rfl, rfl⟩ := h
  rfl

/-! ## Outlines one behind the other -/

/-- Each list of the outline is what the items have of its kind, followed by the list of the
other outline, moved down by `n` lines. -/
structure Outline.Continues (o : Outline) (items : List Item) (n : Nat) (rest : Outline) :
    Prop where
  functions :
    o.functions = items.filterMap Item.function? ++ rest.functions.map (·.shift n)
  classes : o.classes = items.filterMap Item.class? ++ rest.classes.map (·.shift n)
  interfaces :
    o.interfaces = items.filterMap Item.interface? ++ rest.interfaces.map (·.shift n)
  types : o.types = items.filterMap Item.type? ++ rest.types.map (·.shift n)
  constants : o.constants = items.filterMap Item.constant? ++ rest.constants.map (·.shift n)
  imports : o.imports = items.filterMap Item.import? ++ rest.imports.map (·.shift n)
  exports : o.exports = items.filterMap Item.export? ++ rest.exports.map (·.shift n)

namespace Item

variable {α : Type} {f : Item → Option α} {move : α → α} {n : Nat}

/-- One kind of items that were recorded, some of them moved down. -/
theorem filterMap_append_shift (hf : ∀ a : Item, f (a.shift n) = (f a).map move)
    (items more : List Item) :
    (items ++ more.map (·.shift n)).filterMap f =
      items.filterMap f ++ (more.filterMap f).map move := by
  rw [List.filterMap_append, List.filterMap_map, List.map_filterMap]
  exact congrArg (fun f => items.filterMap _ ++ more.filterMap f) (funext hf)

end Item

theorem Outline.Holds.continues {o rest : Outline} {items more : List Item} {n : Nat}
    (h : o.Holds (items ++ more.map (·.shift n))) (hrest : rest.Holds more) :
    o.Continues items n rest where
  functions := by
    rw [h.functions, hrest.functions]
    exact Item.filterMap_append_shift (fun a => by cases a <;> rfl) items more
  classes := by
    rw [h.classes, hrest.classes]
    exact Item.filterMap_append_shift (fun a => by cases a <;> rfl) items more
  interfaces := by
    rw [h.interfaces, hrest.interfaces]
    exact Item.filterMap_append_shift (fun a => by cases a <;> rfl) items more
  types := by
    rw [h.types, hrest.types]
    exact Item.filterMap_append_shift (fun a => by cases a <;> rfl) items more
  constants := by
    rw [h.constants, hrest.constants]
    exact Item.filterMap_append_shift (fun a => by cases a <;> rfl) items more
  imports := by
    rw [h.imports, hrest.imports]
    exact Item.filterMap_append_shift (fun a => by cases a <;> rfl) items more
  exports := by
    rw [h.exports, hrest.exports]
    exact Item.filterMap_append_shift (fun a => by cases a <;> rfl) items more

/-! ## Scans one behind the other -/

section

variable {path : String} {family : Family} {front back : List Line}

/-- A new scan records from line `n` on what it records from the first line on, moved down. -/
theorem Scan.itemsFrom_shift (n : Nat) (ls : List Line) :
    ({ path, family } : Scan).itemsFrom n ls =
      (({ path, family } : Scan).itemsFrom 0 ls).map (·.shift n) := by
  have hcarry := itemsFrom_carry (t := ⟨id, id, n⟩) .refl { path, family } 0 ls
  rwa [List.map_id, Nat.zero_add] at hcarry

/-- What a file records is what was recorded up to a clean moment, and what the lines from
there on record by themselves. -/
theorem Moment.Reached.items_of_clean {m : Moment}
    (h : Reached (front ++ back) (.start path family) m) (hindex : m.index = front.length)
    (hclean : m.scan.Clean) :
    ({ path, family } : Scan).itemsFrom 0 (front ++ back) =
      m.items ++ (({ path, family } : Scan).itemsFrom 0 back).map (·.shift front.length) := by
  obtain ⟨hpath, hfamily⟩ := h.sameFile
  have htotal : _ = ({ path, family } : Scan).itemsFrom 0 (front ++ back) := h.total_eq
  rw [← htotal, Moment.total, hclean.eq_new, hpath, hfamily, hindex, List.drop_left,
    ← Scan.itemsFrom_shift]

/-- A new scan passes a blank line and stays new. -/
theorem Scan.step_of_isBlank {ls : List Line} (h : firstTrimmed ls = []) (at_ : Nat) :
    ({ path, family } : Scan).step at_ ls = .done { path, family } [] 0 := by
  cases family with
  | brace =>
    simp only [step, outsideStep, Brace.outsideStep, h]
    rfl
  | indent =>
    simp only [step, outsideStep, Indent.outsideStep, h]
    rfl

theorem Scan.itemsFrom_append_of_isBlank (hblank : ∀ l ∈ front, Text.isBlank l = true)
    (at_ : Nat) :
    ({ path, family } : Scan).itemsFrom at_ (front ++ back) =
      ({ path, family } : Scan).itemsFrom (at_ + front.length) back := by
  induction front generalizing at_ with
  | nil => rfl
  | cons l front ih =>
    obtain ⟨hl, hblank⟩ := List.forall_mem_cons.mp hblank
    have hfirst : firstTrimmed (l :: (front ++ back)) = [] := Text.trim_eq_nil_of_isBlank hl
    have hstep : ({ path, family } : Scan).step at_ (l :: (front ++ back)) = _ :=
      step_of_isBlank hfirst at_
    rw [List.cons_append, itemsFrom_of_done (List.cons_ne_nil _ _) hstep]
    simp only [List.nil_append, Nat.add_zero, List.drop_succ_cons, List.drop_zero, ih hblank,
      List.length_cons, Nat.add_assoc, Nat.add_comm 1]

end

/-! ## Files one behind the other -/

theorem holds_scanLines (path : String) (family : Family) (ls : List Line) :
    (scanLines path family ls).Holds (({ path, family } : Scan).itemsFrom 0 ls) := by
  constructor <;> rfl

theorem Outline.holds_itemsFrom (path : String) (family : Family) (content : List Char) :
    (Outline.build path content family).Holds
      (({ path, family } : Scan).itemsFrom 0 (Text.lines content)) := by
  constructor <;> rfl

/-- Where a scan comes to the end of `front` with nothing open, the outline is what has been
recorded there, followed by the outline of the remaining lines, moved down by the lines in
front. This holds of lines, and of files whose text begins with the lines of `front`. A file
that begins with blank lines is the remaining file, moved down. -/
theorem Outline.continues_build (path : String) (family : Family) :
    (∀ (front back : List Line) (m : Moment),
        Moment.Reached (front ++ back) (.start path family) m →
        m.index = front.length → m.scan.Clean →
        (scanLines path family (front ++ back)).Continues m.items front.length
          (scanLines path family back)) ∧
      ∀ (front : List Line) (tail : List Char), (∀ l ∈ front, '\n' ∉ l) →
        let content := Text.terminated front ++ tail
        (∀ m : Moment, Moment.Reached (Text.lines content) (.start path family) m →
            m.index = front.length → m.scan.Clean →
            (Outline.build path content family).Continues m.items front.length
              (Outline.build path tail family)) ∧
          ((∀ l ∈ front, Text.isBlank l = true) →
            (Outline.build path content family).Continues [] front.length
              (Outline.build path tail family)) := by
  refine ⟨fun front back m hreached hindex hclean => ?_, fun front tail hfront => ⟨?_, ?_⟩⟩
  · have hholds := holds_scanLines path family (front ++ back)
    rw [hreached.items_of_clean hindex hclean] at hholds
    exact hholds.continues (holds_scanLines path family back)
  · intro m hreached hindex hclean
    have hholds := holds_itemsFrom path family (Text.terminated front ++ tail)
    rw [Text.lines_terminated_append hfront] at hreached hholds
    -- a line loses its carriage return when the text is cut, but no line is lost
    rw [← List.length_map (f := Text.dropCarriage)] at hindex
    rw [hreached.items_of_clean hindex hclean, List.length_map] at hholds
    exact hholds.continues (holds_itemsFrom path family tail)
  · intro hblank
    have hholds := holds_itemsFrom path family (Text.terminated front ++ tail)
    have hblank' : ∀ l ∈ front.map Text.dropCarriage, Text.isBlank l = true := by
      intro l hl
      obtain ⟨l, hmem, rfl⟩ := List.mem_map.mp hl
      exact Text.isBlank_dropCarriage (hblank l hmem)
    rw [Text.lines_terminated_append hfront, Scan.itemsFrom_append_of_isBlank hblank',
      Nat.zero_add, List.length_map, Scan.itemsFrom_shift, ← List.nil_append (List.map _ _)]
      at hholds
    exact hholds.continues (holds_itemsFrom path family tail)

/-- The first line of a file, which holds an import. -/
def importLine : List Line := ["import os".toList]

/-- The lines behind it, which hold a function. -/
def functionText : List Char := "def f():\n    pass\n".toList

theorem continues_importThenFunction :
    let content := Text.terminated importLine ++ functionText
    let m := (Moment.start "a.py" .indent).next (Text.lines content)
    (∀ l ∈ importLine, '\n' ∉ l) ∧
      Moment.Reached (Text.lines content) (.start "a.py" .indent) m ∧
      m.index = importLine.length ∧ m.scan.Clean ∧
      m.items =
        [.importItem
          { module := "os", names := ["os"], isNamespace := true, line := 1,
            origin := some .builtin }] ∧
      (Outline.build "a.py" content .indent).Continues m.items importLine.length
        (Outline.build "a.py" functionText .indent) := by
  intro content m
  have hfront : ∀ l ∈ importLine, '\n' ∉ l := by decide
  have hreached : Moment.Reached (Text.lines content) (.start "a.py" .indent) m :=
    .next .first (by decide +kernel)
  have hindex : m.index = importLine.length := by decide +kernel
  have hclean : m.scan.Clean :=
    { noClass := Option.isNone_iff_eq_none.mp (by decide +kernel), depth := by decide +kernel,
      noDocLines := by decide +kernel, docClosed := by decide +kernel,
      noDecorators := by decide +kernel, noComment := by decide +kernel }
  exact ⟨hfront, hreached, hindex, hclean, by decide +kernel,
    ((Outline.continues_build "a.py" .indent).2 importLine functionText hfront).1 m hreached
      hindex hclean⟩

end CodeAtlas
