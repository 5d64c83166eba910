/-
Items and outlines.

A scan records items of seven kinds in one list, and an outline has one list for each kind.
What holds between the items of the one list therefore holds, kind by kind, between the
records of an outline (`Item.IsKind.pairwise_filterMap`), and a record is in the outline
exactly if its item is in the list.
-/
import CodeAtlas.Scan.State
import Mathlib.Data.List.Basic

set_option autoImplicit false

namespace CodeAtlas

/-! ## Kinds -/

namespace Item

variable {α : Type} {f : Item → Option α} {mk : α → Item} {items : List Item}

/-- One kind of items: `f` finds the record of an item of the kind, and `mk` makes an item of
a record. -/
def IsKind (f : Item → Option α) (mk : α → Item) : Prop := ∀ a r, f a = some r ↔ a = mk r

theorem isKind_function : IsKind function? function := by
  intro a r
  cases a <;> simp [function?]

theorem isKind_classItem : IsKind class? classItem := by
  intro a r
  cases a <;> simp [class?]

theorem isKind_interface : IsKind interface? interface := by
  intro a r
  cases a <;> simp [interface?]

theorem isKind_type : IsKind type? type := by
  intro a r
  cases a <;> simp [type?]

theorem isKind_constant : IsKind constant? constant := by
  intro a r
  cases a <;> simp [constant?]

theorem isKind_importItem : IsKind import? importItem := by
  intro a r
  cases a <;> simp [import?]

theorem isKind_exportItem : IsKind export? exportItem := by
  intro a r
  cases a <;> simp [export?]

theorem IsKind.mem_filterMap (h : IsKind f mk) {r : α} : r ∈ items.filterMap f ↔ mk r ∈ items := by
  rw [List.mem_filterMap]
  constructor
  · rintro ⟨a, ha, heq⟩
    rwa [← (h a r).mp heq]
  · intro hr
    exact ⟨mk r, hr, (h _ r).mpr rfl⟩

/-- What holds between items holds between the records of one kind. -/
theorem IsKind.pairwise_filterMap (h : IsKind f mk) {S : Item → Item → Prop} {R : α → α → Prop}
    (hitems : items.Pairwise S) (hrecords : ∀ r r', mk r ∈ items → S (mk r) (mk r') → R r r') :
    (items.filterMap f).Pairwise R := by
  refine List.pairwise_filterMap.mpr (hitems.imp_of_mem fun {a b} ha _ hab r hr r' hr' => ?_)
  rw [(h a r).mp hr] at ha hab
  rw [(h b r').mp hr'] at hab
  exact hrecords r r' ha hab

end Item

/-! ## Outlines -/

/-- The outline holds the items of each kind, in their order, and no others. -/
structure Outline.Holds (o : Outline) (items : List Item) : Prop where
  functions : o.functions = items.filterMap Item.function?
  classes : o.classes = items.filterMap Item.class?
  interfaces : o.interfaces = items.filterMap Item.interface?
  types : o.types = items.filterMap Item.type?
  constants : o.constants = items.filterMap Item.constant?
  imports : o.imports = items.filterMap Item.import?
  exports : o.exports = items.filterMap Item.export?

namespace Outline.Holds

variable {o : Outline} {items : List Item}

theorem mem_functions (h : o.Holds items) {r : FunctionRecord} :
    r ∈ o.functions ↔ .function r ∈ items := by
  rw [h.functions]
  exact Item.isKind_function.mem_filterMap

theorem mem_classes (h : o.Holds items) {c : ClassRecord} :
    c ∈ o.classes ↔ .classItem c ∈ items := by
  rw [h.classes]
  exact Item.isKind_classItem.mem_filterMap

theorem mem_interfaces (h : o.Holds items) {r : InterfaceRecord} :
    r ∈ o.interfaces ↔ .interface r ∈ items := by
  rw [h.interfaces]
  exact Item.isKind_interface.mem_filterMap

theorem mem_types (h : o.Holds items) {r : TypeRecord} : r ∈ o.types ↔ .type r ∈ items := by
  rw [h.types]
  exact Item.isKind_type.mem_filterMap

theorem mem_constants (h : o.Holds items) {r : ConstantRecord} :
    r ∈ o.constants ↔ .constant r ∈ items := by
  rw [h.constants]
  exact Item.isKind_constant.mem_filterMap

theorem mem_imports (h : o.Holds items) {r : ImportRecord} :
    r ∈ o.imports ↔ .importItem r ∈ items := by
  rw [h.imports]
  exact Item.isKind_importItem.mem_filterMap

theorem mem_exports (h : o.Holds items) {r : ExportRecord} :
    r ∈ o.exports ↔ .exportItem r ∈ items := by
  rw [h.exports]
  exact Item.isKind_exportItem.mem_filterMap

end Outline.Holds

end CodeAtlas
