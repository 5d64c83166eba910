/-
Items that do not overlap.

Functions and classes reach over lines, and every other record stands on one. Two items
that were recorded one behind the other are apart if the second stands behind the last
line of the first (`Item.Before`), with two exceptions that are read off one line: an
export stands in front of what it exports, and a statement may import more than once.

What an outline says about lines, kind by kind, follows from the order of all items
(`Outline.Holds.tiled`), whichever scan they come from.
-/
import CodeAtlas.Proofs.Outline.Items
import Mathlib.Data.List.Pairwise
import Mathlib.Order.Interval.Finset.Nat

set_option autoImplicit false

namespace CodeAtlas

/-! ## The lines of records -/

/-- The lines that the function reaches over, counted from one. -/
def FunctionRecord.lines (r : FunctionRecord) : Finset Nat :=
  Finset.Icc r.line (r.line + r.lineCount - 1)

/-- The lines that the class reaches over, counted from one. -/
def ClassRecord.lines (c : ClassRecord) : Finset Nat :=
  Finset.Icc c.line (c.line + c.lineCount - 1)

/-- What the functions and classes of the outline reach over. -/
def Outline.bodies (o : Outline) : List (Finset Nat) :=
  o.functions.map FunctionRecord.lines ++ o.classes.map ClassRecord.lines

/-- The lines of imports, interfaces, types and constants. -/
def Outline.plainLines (o : Outline) : List Nat :=
  o.imports.map (·.line) ++ o.interfaces.map (·.line) ++ o.types.map (·.line) ++
    o.constants.map (·.line)

/-- The methods fill lines between `above` and `below`, one behind the other. -/
structure MethodsTile (above below : Nat) (methods : List FunctionRecord) : Prop where
  between : ∀ f ∈ methods, above < f.line ∧ 0 < f.lineCount ∧ f.line + f.lineCount ≤ below + 1
  ordered : methods.Pairwise fun f g => f.line + f.lineCount ≤ g.line

theorem MethodsTile.nil (above below : Nat) : MethodsTile above below [] :=
  ⟨fun f hf => by simp at hf, .nil⟩

theorem MethodsTile.mono {above below below' : Nat} {methods : List FunctionRecord}
    (h : MethodsTile above below methods) (hle : below ≤ below') :
    MethodsTile above below' methods where
  between f hf := by
    obtain ⟨habove, hcount, hbelow⟩ := h.between f hf
    exact ⟨habove, hcount, by omega⟩
  ordered := h.ordered

namespace Item

def line : Item → Nat
  | function r => r.line
  | classItem r => r.line
  | interface r => r.line
  | type r => r.line
  | constant r => r.line
  | importItem r => r.line
  | exportItem r => r.line

def last : Item → Nat
  | function r => r.line + r.lineCount - 1
  | classItem r => r.line + r.lineCount - 1
  | item => item.line

/-- May the first item stand on the same line as the second one? -/
def SharesLine : Item → Item → Prop
  | exportItem _, _ => True
  | importItem _, importItem _ => True
  | _, _ => False

/-- The second item stands behind the first one, or they share a line. -/
def Before (a b : Item) : Prop := a.last < b.line ∨ a.line = b.line ∧ a.SharesLine b

/-- The item lies in a file of `n` lines, and its methods in the item. -/
structure InFile (n : Nat) (a : Item) : Prop where
  first : 0 < a.line
  last : a.line ≤ a.last ∧ a.last ≤ n
  methods : ∀ c, a = classItem c → MethodsTile c.line a.last c.methods

/-- What a function or a class reaches over. -/
def body? : Item → Option (Finset Nat)
  | function r => some r.lines
  | classItem c => some c.lines
  | _ => none

variable {a b : Item} {s t : Finset Nat}

theorem eq_Icc_of_body? (h : a.body? = some s) : s = Finset.Icc a.line a.last := by
  cases a <;> simp only [body?, Option.some.injEq, reduceCtorEq] at h <;> exact h.symm

theorem not_sharesLine_of_body? (h : a.body? = some s) : ¬ a.SharesLine b := by
  cases a <;> simp [body?, SharesLine] at h ⊢

theorem Before.disjoint (h : a.Before b) (ha : a.body? = some s) (hb : b.body? = some t) :
    Disjoint s t := by
  rcases h with hlt | ⟨-, hshares⟩
  · rw [eq_Icc_of_body? ha, eq_Icc_of_body? hb, Finset.disjoint_left]
    intro x hx hx'
    rw [Finset.mem_Icc] at hx hx'
    omega
  · exact absurd hshares (not_sharesLine_of_body? ha)

end Item

/-! ## Items in order -/

/-- The item begins on line `i`, counted from zero, reaches over at most `further` more, and
is no class. -/
structure Item.StandsAt (i further : Nat) (a : Item) : Prop where
  line : a.line = i + 1
  last : a.line ≤ a.last ∧ a.last ≤ i + further + 1
  noClass : ∀ c, a ≠ .classItem c

/-- All but functions and classes end on the line on which they begin. -/
theorem Item.StandsAt.of_line {i further : Nat} {a : Item} (hline : a.line = i + 1)
    (hlast : a.last = a.line) (hclass : ∀ c, a ≠ .classItem c) : a.StandsAt i further :=
  ⟨hline, ⟨hlast.ge, by omega⟩, hclass⟩

/-- The items of the first `i` lines of a file of `n` lines, in order. -/
structure Recorded (n i : Nat) (items : List Item) : Prop where
  ordered : items.Pairwise Item.Before
  inFile : ∀ a ∈ items, a.InFile n
  done : ∀ a ∈ items, a.last ≤ i

/-- The items of the first `i` lines and exports of the next one, in order. What is exported
is still to be recorded. -/
structure Announced (n i : Nat) (items : List Item) : Prop where
  ordered : items.Pairwise Item.Before
  inFile : ∀ a ∈ items, a.InFile n
  done : ∀ a ∈ items, a.last ≤ i ∨ ∃ r, a = .exportItem r ∧ r.line = i + 1

section

variable {n i : Nat} {items more : List Item}

/-- Items on one line that share it are in order. -/
theorem pairwise_before_of_sharesLine (hline : ∀ a ∈ items, a.line = i)
    (hshares : ∀ a ∈ items, ∀ b ∈ items, a.SharesLine b) : items.Pairwise Item.Before := by
  apply List.pairwise_of_forall_mem_list
  intro a ha b hb
  exact .inr ⟨(hline a ha).trans (hline b hb).symm, hshares a ha b hb⟩

/-- The items of the next lines follow. -/
theorem Recorded.append {further : Nat} (h : Recorded n i items)
    (hordered : more.Pairwise Item.Before) (hstands : ∀ b ∈ more, b.StandsAt i further)
    (hle : i + further + 1 ≤ n) : Recorded n (i + further + 1) (items ++ more) where
  ordered := by
    -- what is new begins behind the last line of what is old
    refine List.pairwise_append.mpr ⟨h.ordered, hordered, fun a ha b hb => .inl ?_⟩
    have hdone := h.done a ha
    have hline := (hstands b hb).line
    omega
  inFile a ha := by
    rcases List.mem_append.mp ha with hold | hnew
    · exact h.inFile a hold
    · have hline := (hstands a hnew).line
      have hlast := (hstands a hnew).last
      exact ⟨by omega, ⟨hlast.1, by omega⟩, fun c hc => absurd hc ((hstands a hnew).noClass c)⟩
  done a ha := by
    rcases List.mem_append.mp ha with hold | hnew
    · have hdone := h.done a hold
      omega
    · exact (hstands a hnew).last.2

/-- The exports of the next line follow, before what they export. -/
theorem Recorded.announce (h : Recorded n i items)
    (hexports : ∀ a ∈ more, ∃ r, a = .exportItem r ∧ r.line = i + 1) (hlt : i < n) :
    Announced n i (items ++ more) := by
  have hstands : ∀ a ∈ more, a.StandsAt i 0 := by
    intro a ha
    obtain ⟨r, rfl, hline⟩ := hexports a ha
    exact .of_line hline rfl nofun
  have hordered : more.Pairwise Item.Before := by
    refine pairwise_before_of_sharesLine (fun a ha => (hstands a ha).line) fun a ha b hb => ?_
    obtain ⟨r, rfl, -⟩ := hexports a ha
    trivial
  have happend := h.append hordered hstands hlt
  refine ⟨happend.ordered, happend.inFile, fun a ha => ?_⟩
  rcases List.mem_append.mp ha with hold | hnew
  · exact .inl (h.done a hold)
  · exact .inr (hexports a hnew)

/-- What is exported follows, however many lines it reaches over. -/
theorem Announced.close {a : Item} (h : Announced n i items) (hline : a.line = i + 1)
    (hfile : a.InFile n) : Recorded n a.last (items ++ [a]) := by
  have hlast := hfile.last
  refine ⟨List.pairwise_append.mpr ⟨h.ordered, List.pairwise_singleton _ _, ?_⟩, ?_, ?_⟩
  · intro b hb a' ha'
    rw [List.mem_singleton.mp ha']
    rcases h.done b hb with hdone | ⟨r, rfl, hr⟩
    · exact .inl (by omega)
    · exact .inr ⟨hr.trans hline.symm, trivial⟩
  · intro b hb
    rcases List.mem_append.mp hb with hold | hnew
    · exact h.inFile b hold
    · rw [List.mem_singleton.mp hnew]
      exact hfile
  · intro b hb
    rcases List.mem_append.mp hb with hold | hnew
    · -- an export on the first line of the item is not behind its last one
      rcases h.done b hold with hdone | ⟨r, rfl, hr⟩
      · omega
      · have hexport : (Item.exportItem r).last = r.line := rfl
        omega
    · rw [List.mem_singleton.mp hnew]

end

/-! ## Outlines -/

/-- Nothing in the outline of a file overlaps, and each kind of record is in the order of
the lines. -/
structure Outline.Tiled (o : Outline) : Prop where
  disjoint : o.bodies.Pairwise Disjoint
  inFile : ∀ s ∈ o.bodies, s.Nonempty ∧ s ⊆ Finset.Icc 1 o.lineCount
  methods : ∀ c ∈ o.classes,
    (∀ f ∈ c.methods, c.line < f.line ∧ f.lines.Nonempty ∧ f.lines ⊆ c.lines) ∧
      c.methods.Pairwise fun f g => Disjoint f.lines g.lines ∧ f.line < g.line
  plain : ∀ line ∈ o.plainLines, ∀ s ∈ o.bodies, line ∉ s
  exports : ∀ e ∈ o.exports, ∀ s ∈ o.bodies, e.line ∈ s → ∀ line ∈ s, e.line ≤ line
  functionsOrdered : o.functions.Pairwise (·.line < ·.line)
  classesOrdered : o.classes.Pairwise (·.line < ·.line)
  interfacesOrdered : o.interfaces.Pairwise (·.line < ·.line)
  typesOrdered : o.types.Pairwise (·.line < ·.line)
  constantsOrdered : o.constants.Pairwise (·.line < ·.line)
  importsOrdered : o.imports.Pairwise (·.line ≤ ·.line)
  exportsOrdered : o.exports.Pairwise (·.line ≤ ·.line)

namespace Item

/-- One of the items stands behind the other, or they share a line. -/
def Apart (a b : Item) : Prop := a.Before b ∨ b.Before a

instance : Std.Symm Apart := ⟨fun _ _ h => h.symm⟩

/-- An item is not among the lines of a function or a class, unless it is an export on its
first line. -/
theorem Apart.not_mem {a b : Item} {s : Finset Nat} (h : a.Apart b) (hb : b.body? = some s)
    (ha : a.line ≤ a.last) : a.line ∉ s ∨ ∃ r, a = exportItem r ∧ a.line = b.line := by
  have hs := eq_Icc_of_body? hb
  have hmem : a.line ∈ s ↔ b.line ≤ a.line ∧ a.line ≤ b.last := by rw [hs, Finset.mem_Icc]
  rcases h with (hlt | ⟨heq, hshares⟩) | hlt | ⟨-, hshares⟩
  · exact .inl (by rw [hmem]; omega)
  · -- only an export shares its line with a function or a class
    cases a with
    | exportItem r => exact .inr ⟨r, rfl, heq⟩
    | importItem r => cases b <;> simp [SharesLine, body?] at hshares hb
    | _ => exact absurd hshares (by simp [SharesLine])
  · exact .inl (by rw [hmem]; omega)
  · exact absurd hshares (not_sharesLine_of_body? hb)

end Item

section

variable {items : List Item} {n : Nat}

/-- The records of a kind that shares no line are in the order of their lines. -/
theorem Item.IsKind.pairwise_line_lt {α : Type} {f : Item → Option α} {mk : α → Item}
    (h : Item.IsKind f mk) (hordered : items.Pairwise Item.Before)
    (hinFile : ∀ a ∈ items, a.InFile n) (hshares : ∀ r r', ¬ (mk r).SharesLine (mk r')) :
    (items.filterMap f).Pairwise fun r r' => (mk r).line < (mk r').line := by
  refine h.pairwise_filterMap hordered fun r r' hr hbefore => ?_
  rcases hbefore with hlt | ⟨-, hshare⟩
  · have hlast := (hinFile _ hr).last.1
    omega
  · exact absurd hshare (hshares r r')

theorem Item.IsKind.pairwise_line_le {α : Type} {f : Item → Option α} {mk : α → Item}
    (h : Item.IsKind f mk) (hordered : items.Pairwise Item.Before)
    (hinFile : ∀ a ∈ items, a.InFile n) :
    (items.filterMap f).Pairwise fun r r' => (mk r).line ≤ (mk r').line := by
  refine h.pairwise_filterMap hordered fun r r' hr hbefore => ?_
  rcases hbefore with hlt | ⟨heq, -⟩
  · have hlast := (hinFile _ hr).last.1
    omega
  · omega

variable {o : Outline}

theorem Outline.Holds.mem_bodies (hholds : o.Holds items) {s : Finset Nat} :
    s ∈ o.bodies ↔ ∃ a ∈ items, a.body? = some s := by
  rw [Outline.bodies, List.mem_append, List.mem_map, List.mem_map]
  constructor
  · rintro (⟨r, hr, rfl⟩ | ⟨c, hc, rfl⟩)
    · exact ⟨_, hholds.mem_functions.mp hr, rfl⟩
    · exact ⟨_, hholds.mem_classes.mp hc, rfl⟩
  · rintro ⟨a, ha, heq⟩
    cases a with
    | function r => exact .inl ⟨r, hholds.mem_functions.mpr ha, Option.some.inj heq⟩
    | classItem c => exact .inr ⟨c, hholds.mem_classes.mpr ha, Option.some.inj heq⟩
    | _ => simp [Item.body?] at heq

theorem Outline.Holds.mem_plainLines (hholds : o.Holds items) {line : Nat}
    (h : line ∈ o.plainLines) :
    ∃ a ∈ items, a.line = line ∧ a.body? = none ∧ ∀ r, a ≠ .exportItem r := by
  simp only [Outline.plainLines, List.mem_append, List.mem_map] at h
  rcases h with ((⟨r, hr, rfl⟩ | ⟨r, hr, rfl⟩) | ⟨r, hr, rfl⟩) | ⟨r, hr, rfl⟩
  · exact ⟨_, hholds.mem_imports.mp hr, rfl, rfl, fun e h => by cases h⟩
  · exact ⟨_, hholds.mem_interfaces.mp hr, rfl, rfl, fun e h => by cases h⟩
  · exact ⟨_, hholds.mem_types.mp hr, rfl, rfl, fun e h => by cases h⟩
  · exact ⟨_, hholds.mem_constants.mp hr, rfl, rfl, fun e h => by cases h⟩

theorem Outline.Holds.disjoint_bodies (hholds : o.Holds items)
    (hordered : items.Pairwise Item.Before) : o.bodies.Pairwise Disjoint := by
  have hapart : items.Pairwise Item.Apart := hordered.imp .inl
  rw [Outline.bodies, List.pairwise_append, List.pairwise_map, List.pairwise_map]
  refine ⟨?_, ?_, fun s hs t ht => ?_⟩
  · rw [hholds.functions]
    exact Item.isKind_function.pairwise_filterMap hordered fun r r' _ h => h.disjoint rfl rfl
  · rw [hholds.classes]
    exact Item.isKind_classItem.pairwise_filterMap hordered fun c c' _ h => h.disjoint rfl rfl
  · -- a function may stand in front of a class or behind it
    obtain ⟨r, hr, rfl⟩ := List.mem_map.mp hs
    obtain ⟨c, hc, rfl⟩ := List.mem_map.mp ht
    rcases hapart.forall (hholds.mem_functions.mp hr) (hholds.mem_classes.mp hc) (by simp) with
      hbefore | hbefore
    · exact hbefore.disjoint rfl rfl
    · exact (hbefore.disjoint rfl rfl).symm

theorem tiled_methods {c : ClassRecord} (h : (Item.classItem c).InFile n) :
    (∀ f ∈ c.methods, c.line < f.line ∧ f.lines.Nonempty ∧ f.lines ⊆ c.lines) ∧
      c.methods.Pairwise fun f g => Disjoint f.lines g.lines ∧ f.line < g.line := by
  have htile := h.methods c rfl
  have hlast : (Item.classItem c).last = c.line + c.lineCount - 1 := rfl
  rw [hlast] at htile
  constructor
  · intro f hf
    obtain ⟨habove, hcount, hbelow⟩ := htile.between f hf
    refine ⟨habove, Finset.nonempty_Icc.mpr (by omega), Finset.Icc_subset_Icc (by omega) (by omega)⟩
  · refine htile.ordered.imp_of_mem fun {f g} hf hg hle => ?_
    obtain ⟨-, hcount, -⟩ := htile.between f hf
    refine ⟨?_, by omega⟩
    rw [FunctionRecord.lines, FunctionRecord.lines, Finset.disjoint_left]
    intro x hx hx'
    rw [Finset.mem_Icc] at hx hx'
    omega

/-- What the functions and classes of an outline reach over lies in the file. -/
theorem Outline.Holds.bodies_inFile (hholds : o.Holds items)
    (hinFile : ∀ a ∈ items, a.InFile o.lineCount) :
    ∀ s ∈ o.bodies, s.Nonempty ∧ s ⊆ Finset.Icc 1 o.lineCount := by
  intro s hs
  obtain ⟨a, ha, heq⟩ := hholds.mem_bodies.mp hs
  have hfirst := (hinFile a ha).first
  have hlast := (hinFile a ha).last
  rw [Item.eq_Icc_of_body? heq]
  exact ⟨Finset.nonempty_Icc.mpr hlast.1, Finset.Icc_subset_Icc hfirst hlast.2⟩

/-- An outline whose items are in order and lie in the file is tiled. -/
theorem Outline.Holds.tiled (hholds : o.Holds items) (hordered : items.Pairwise Item.Before)
    (hinFile : ∀ a ∈ items, a.InFile o.lineCount) : o.Tiled where
  disjoint := hholds.disjoint_bodies hordered
  inFile := hholds.bodies_inFile hinFile
  methods c hc := tiled_methods (hinFile _ (hholds.mem_classes.mp hc))
  plain line hline s hs := by
    obtain ⟨a, ha, rfl, hplain, hnoExport⟩ := hholds.mem_plainLines hline
    obtain ⟨b, hb, heq⟩ := hholds.mem_bodies.mp hs
    -- they are two items of one list, and apart whichever of them comes first
    have hne : a ≠ b := by
      rintro rfl
      simp [hplain] at heq
    have hapart := (hordered.imp (S := Item.Apart) .inl).forall ha hb hne
    rcases hapart.not_mem heq (hinFile a ha).last.1 with hout | ⟨r, hr, -⟩
    · exact hout
    · exact absurd hr (hnoExport r)
  exports e he s hs hmem := by
    obtain ⟨b, hb, hbody⟩ := hholds.mem_bodies.mp hs
    have hne : Item.exportItem e ≠ b := by
      rintro rfl
      simp [Item.body?] at hbody
    have hapart := (hordered.imp (S := Item.Apart) .inl).forall
      (hholds.mem_exports.mp he) hb hne
    rcases hapart.not_mem hbody (Nat.le_refl _) with hout | ⟨-, -, hfirst⟩
    · exact absurd hmem hout
    · -- the export stands on the first line of what it is in
      intro line hline
      rw [Item.eq_Icc_of_body? hbody, Finset.mem_Icc] at hline
      have hfirst : e.line = b.line := hfirst
      omega
  functionsOrdered := by
    rw [hholds.functions]
    exact Item.isKind_function.pairwise_line_lt hordered hinFile fun r r' => id
  classesOrdered := by
    rw [hholds.classes]
    exact Item.isKind_classItem.pairwise_line_lt hordered hinFile fun r r' => id
  interfacesOrdered := by
    rw [hholds.interfaces]
    exact Item.isKind_interface.pairwise_line_lt hordered hinFile fun r r' => id
  typesOrdered := by
    rw [hholds.types]
    exact Item.isKind_type.pairwise_line_lt hordered hinFile fun r r' => id
  constantsOrdered := by
    rw [hholds.constants]
    exact Item.isKind_constant.pairwise_line_lt hordered hinFile fun r r' => id
  importsOrdered := by
    rw [hholds.imports]
    exact Item.isKind_importItem.pairwise_line_le hordered hinFile
  exportsOrdered := by
    rw [hholds.exports]
    exact Item.isKind_exportItem.pairwise_line_le hordered hinFile

end

end CodeAtlas
