/-
Exports and declarations agree.

An exported declaration is recorded twice, as what it declares and as an export of its line.
Both records are made in one call of the scan, so what has to be followed is only that an
export is recorded whenever its line is, also while the class of the line is still open
(`ExportsKept`). That the two agree on the name is a fact about the line
(`Brace.exportsAgree_of_outside`).
-/
import CodeAtlas.Proofs.Header.Exported
import CodeAtlas.Proofs.Scan.Origin
import CodeAtlas.Proofs.Scan.Tiling

set_option autoImplicit false

namespace CodeAtlas

open Brace (LineExports exportsOf gluedFunction oddType outerName)

/-- The line without the blanks around it exports what the item declares as exported; an
export is one of the line. -/
def Item.AgreesWith (t : List Char) : Item → Prop
  | .function r => r.exported = true → gluedFunction.fits t = false →
      LineExports t r.name.toList r.defaultExport
  | .classItem r => r.exported = true → LineExports t r.name.toList r.defaultExport
  | .interface r => r.exported = true → ∃ isDefault, LineExports t r.name.toList isDefault
  | .type r => r.exported = true → oddType t = false → LineExports t (outerName r) false
  | .constant r => r.exported = true → LineExports t r.name.toList r.defaultExport
  | .exportItem e => ∃ e₀ ∈ exportsOf t, e₀.name = e.name ∧ e₀.isDefault = e.isDefault
  | .importItem _ => True

/-- The item agrees with its line, and the exports of the line are recorded. -/
structure ExportsKept (file : List Line) (items : List Item) (a : Item) : Prop where
  agrees : a.AgreesWith (Text.trim (lineAt file a.line))
  kept : ∀ e ∈ exportsOf (Text.trim (lineAt file a.line)),
    Item.exportItem (e.shift (a.line - 1)) ∈ items

theorem ExportsKept.mono {file : List Line} {items items' : List Item} {a : Item}
    (h : ExportsKept file items a) (hsub : ∀ b ∈ items, b ∈ items') :
    ExportsKept file items' a :=
  ⟨h.agrees, fun e he => hsub _ (h.kept e he)⟩

/-- What a class is declared as does not change while it is filled. -/
theorem ExportsKept.filled {file : List Line} {items : List Item} {c c' : ClassScope}
    (h : ExportsKept file items (.closed c)) (hopening : c'.opening = c.opening) :
    ExportsKept file items (.closed c') := by
  have hname : c'.record.name = c.record.name :=
    congrArg (fun o : ClassOpening => o.record.name) hopening
  have hline : c'.record.line = c.record.line :=
    congrArg (fun o : ClassOpening => o.record.line) hopening
  have hexported : c'.record.exported = c.record.exported :=
    congrArg (fun o : ClassOpening => o.record.exported) hopening
  have hdefault : c'.record.defaultExport = c.record.defaultExport :=
    congrArg (fun o : ClassOpening => o.record.defaultExport) hopening
  obtain ⟨hagrees, hkept⟩ := h
  simp only [Item.closed, Item.line, Item.AgreesWith, ClassScope.finish] at hagrees hkept
  constructor
  · simp only [Item.closed, Item.line, Item.AgreesWith, ClassScope.finish]
    rw [hline, hname, hexported, hdefault]
    exact hagrees
  · simp only [Item.closed, Item.line, ClassScope.finish]
    rw [hline]
    exact hkept

namespace Brace

variable {file : List Line} {m m' : Moment}

/-! ## One line -/

theorem Declares.agrees {s : Scan} {i further : Nat} {ls : List Line} {items : List Item}
    (h : Declares s i ls items further) : ∀ a ∈ items, a.AgreesWith (firstTrimmed ls) := by
  intro a ha
  cases h with
  | nothing => cases ha
  | imports =>
    obtain ⟨r, -, rfl⟩ := List.mem_map.mp ha
    trivial
  | interface hit | type hit | function hit | constant hit =>
    rw [List.mem_singleton.mp ha]
    exact exportsAgree_of_outside hit

theorem agrees_of_mem_exportItems {i : Nat} {ls : List Line} {a : Item}
    (h : a ∈ exportItems i ls) : a.AgreesWith (firstTrimmed ls) := by
  obtain ⟨e, he, rfl⟩ := List.mem_map.mp h
  exact ⟨e, he, rfl, rfl⟩

theorem agrees_openedScope {s : Scan} {i : Nat} {ls : List Line} {name : String}
    {head : ClassHead} (hit : firstHit outside ls = some (name, .classHead head)) (doc : Doc)
    (decorators : List String) :
    (Item.closed (openedScope s head i ls doc decorators)).AgreesWith (firstTrimmed ls) :=
  exportsAgree_of_outside hit

/-- A line that records an item records its exports. -/
theorem exportsKept_of_line {i : Nat} {items : List Item} {a : Item} (hline : a.line = i + 1)
    (hagrees : a.AgreesWith (firstTrimmed (file.drop i)))
    (hexports : ∀ b ∈ exportItems i (file.drop i), b ∈ items) : ExportsKept file items a := by
  have htrim : Text.trim (lineAt file a.line) = firstTrimmed (file.drop i) := by
    rw [hline, lineAt_succ, firstTrimmed]
  constructor
  · rw [htrim]
    exact hagrees
  · intro e he
    rw [htrim] at he
    rw [hline, Nat.add_sub_cancel]
    exact hexports _ (List.mem_map_of_mem he)

/-! ## Whole scans -/

/-- Items of one line come to those that are there, the exports of the line among them. -/
theorem exportsKept_append {i : Nat} {items more kept : List Item}
    (hold : ∀ a ∈ items, ExportsKept file items a) (hkept : ∀ b ∈ items, b ∈ kept)
    (hexports : ∀ b ∈ exportItems i (file.drop i), b ∈ kept)
    (hmore : ∀ a ∈ more, a.line = i + 1 ∧ a.AgreesWith (firstTrimmed (file.drop i))) :
    ∀ a ∈ items ++ (exportItems i (file.drop i) ++ more), ExportsKept file kept a := by
  intro a ha
  rcases List.mem_append.mp ha with ha | ha
  · exact (hold a ha).mono hkept
  rcases List.mem_append.mp ha with ha | ha
  · have hat : a.StandsAt i 0 := standsAt_of_mem_exportItems ha
    exact exportsKept_of_line hat.line (agrees_of_mem_exportItems ha) hexports
  · obtain ⟨hline, hagrees⟩ := hmore a ha
    exact exportsKept_of_line hline hagrees hexports

/-- A move keeps what has been recorded, with the class that is open, in agreement. -/
theorem exportsKept_of_move (hmove : Move file m m')
    (h : ∀ a ∈ m.allItems, ExportsKept file m.items a) :
    ∀ a ∈ m'.allItems, ExportsKept file m'.items a := by
  have hitems : ∀ a ∈ m.items, ExportsKept file m.items a :=
    fun a ha => h a (List.mem_append_left _ ha)
  cases hmove with
  | @declares s' exports items further hscope hnone hexports hdecl =>
    rw [Moment.allItems, hnone, Option.map_none, Option.toList_none, List.append_nil]
    rcases hexports with ⟨rfl, rfl⟩ | rfl
    · rw [List.append_nil, List.append_nil]
      exact hitems
    · refine exportsKept_append hitems (fun b hb => ?_) (fun b hb => ?_) fun a ha => ?_
      · exact List.mem_append_left _ hb
      · exact List.mem_append_right _ (List.mem_append_left _ hb)
      · exact ⟨(hdecl.standsAt a ha).line, hdecl.agrees a ha⟩
  | @opens s' name head items hscope hit hopens =>
    -- the class is recorded or open, and in either case the last of all items
    have hall : items ++ (s'.scope.map Item.closed).toList =
        [.closed (openedScope m.scan head m.index (file.drop m.index) m.scan.pending.docNow
          m.scan.pending.decorators)] := by
      unfold Opens at hopens
      split at hopens <;> rw [hopens.1, hopens.2] <;> rfl
    rw [Moment.allItems, List.append_assoc, List.append_assoc, hall]
    refine exportsKept_append hitems (fun b hb => ?_) (fun b hb => ?_) fun a ha => ?_
    · exact List.mem_append_left _ hb
    · exact List.mem_append_right _ (List.mem_append_left _ hb)
    · rw [List.mem_singleton.mp ha]
      exact ⟨rfl, agrees_openedScope hit _ _⟩
  | @stays s s' c c' further hsome hcase hbehind hsome' =>
    have hopen := h (.closed c) (by simp [Moment.allItems, hsome])
    rw [Moment.allItems, hsome']
    exact List.forall_mem_append.mpr ⟨hitems,
      List.forall_mem_singleton.mpr (hopen.filled hcase.opening_eq)⟩
  | @closes s s' c c' further hsome hcase hbehind hnone =>
    have hopen := h (.closed c) (by simp [Moment.allItems, hsome])
    rw [Moment.allItems, hnone, Option.map_none, Option.toList_none, List.append_nil]
    intro a ha
    refine ExportsKept.mono ?_ fun b hb => List.mem_append_left _ hb
    rcases List.mem_append.mp ha with ha | ha
    · exact hitems a ha
    · rw [List.mem_singleton.mp ha]
      exact hopen.filled hcase.opening_eq

theorem exportsKept_of_reached {path : String}
    (h : Moment.Reached file (.start path .brace) m) :
    ∀ a ∈ m.allItems, ExportsKept file m.items a := by
  induction h with
  | first => simp [Moment.allItems, Moment.start]
  | @next m hreached hlt ih =>
    exact exportsKept_of_move (next_move (sameFile_of_reached hreached).2) ih

theorem exportsKept_allItems (path : String) (file : List Line) {a : Item}
    (ha : a ∈ (Moment.last path .brace file).allItems) :
    ExportsKept file (Moment.last path .brace file).allItems a :=
  (exportsKept_of_reached (Moment.reached_last path .brace file) a ha).mono
    fun _ hb => List.mem_append_left _ hb

end Brace

/-! ## Outlines -/

/-- On the line the outline lists an export of the name, and no export that differs. -/
structure Outline.ListsExport (o : Outline) (n : Nat) (name : String) (isDefault : Bool) :
    Prop where
  listed : ∃ e ∈ o.exports, e.line = n ∧ e.name = name ∧ e.isDefault = isDefault
  alone : ∀ e ∈ o.exports, e.line = n → e.name = name ∧ e.isDefault = isDefault

/-- What the outline calls exported leaves the file with an export on its line, under its name
and as the default export if it is one. -/
structure Outline.ExportsAgree (file : List Line) (o : Outline) : Prop where
  functions : ∀ r ∈ o.functions, r.exported = true →
    gluedFunction.fits (Text.trim (lineAt file r.line)) = false →
    o.ListsExport r.line r.name r.defaultExport
  classes : ∀ r ∈ o.classes, r.exported = true → o.ListsExport r.line r.name r.defaultExport
  interfaces : ∀ r ∈ o.interfaces, r.exported = true →
    ∃ isDefault, o.ListsExport r.line r.name isDefault
  types : ∀ r ∈ o.types, r.exported = true → oddType (Text.trim (lineAt file r.line)) = false →
    o.ListsExport r.line (textOf (outerName r)) false
  constants : ∀ r ∈ o.constants, r.exported = true → o.ListsExport r.line r.name r.defaultExport

theorem Outline.Holds.listsExport {file : List Line} {o : Outline} {items : List Item}
    (hholds : o.Holds items) (hkept : ∀ a ∈ items, ExportsKept file items a) {a : Item}
    (ha : a ∈ items) {name : String} {isDefault : Bool} (hpos : 1 ≤ a.line)
    (hline : LineExports (Text.trim (lineAt file a.line)) name.toList isDefault) :
    o.ListsExport a.line name isDefault := by
  obtain ⟨kind, hexports⟩ := hline.exists_kind
  rw [textOf, String.ofList_toList] at hexports
  constructor
  · have hitem := (hkept a ha).kept
    rw [hexports] at hitem
    refine ⟨_, hholds.mem_exports.mpr (hitem _ (List.mem_singleton.mpr rfl)), ?_, rfl, rfl⟩
    simp only [ExportRecord.shift]
    omega
  · intro e he heq
    obtain ⟨e₀, he₀, hname, hdefault⟩ := (hkept _ (hholds.mem_exports.mp he)).agrees
    rw [show (Item.exportItem e).line = a.line from heq, hexports] at he₀
    rw [← hname, ← hdefault, List.mem_singleton.mp he₀]
    exact ⟨rfl, rfl⟩

/-- In the outline of a file of the brace family exports and declarations agree, apart from
functions that are glued to their keyword, constant enumerations and modules; a namespace is
exported under the first part of its name. -/
theorem Outline.exportsAgree_build (path : String) (content : List Char) :
    (Outline.build path content .brace).ExportsAgree (Text.lines content) := by
  have hholds := Outline.holds_build path content .brace
  have hrecorded := Brace.recorded_allItems path (Text.lines content)
  have hkept := fun a => Brace.exportsKept_allItems path (Text.lines content) (a := a)
  generalize Outline.build path content .brace = o at hholds ⊢
  generalize (Moment.last path .brace (Text.lines content)).allItems = items at *
  generalize Text.lines content = file at hrecorded hkept ⊢
  have hlists : ∀ a ∈ items, ∀ name isDefault,
      LineExports (Text.trim (lineAt file a.line)) name.toList isDefault →
      o.ListsExport a.line name isDefault :=
    fun a ha _ _ => hholds.listsExport hkept ha (hrecorded.inFile a ha).first
  refine ⟨fun r hr hexported hglued => ?_, fun r hr hexported => ?_, fun r hr hexported => ?_,
    fun r hr hexported hodd => ?_, fun r hr hexported => ?_⟩
  · have ha := hholds.mem_functions.mp hr
    exact hlists _ ha _ _ ((hkept _ ha).agrees hexported hglued)
  · have ha := hholds.mem_classes.mp hr
    exact hlists _ ha _ _ ((hkept _ ha).agrees hexported)
  · have ha := hholds.mem_interfaces.mp hr
    obtain ⟨isDefault, hline⟩ := (hkept _ ha).agrees hexported
    exact ⟨isDefault, hlists _ ha _ _ hline⟩
  · have ha := hholds.mem_types.mp hr
    refine hlists _ ha _ _ ?_
    -- a name with dots is exported under its first part, which is cut from its characters
    rw [textOf, String.toList_ofList]
    exact (hkept _ ha).agrees hexported hodd
  · have ha := hholds.mem_constants.mp hr
    exact hlists _ ha _ _ ((hkept _ ha).agrees hexported)

/-- A constant enumeration leaves the file under its keyword, and its name does not leave. -/
theorem exports_constEnum :
    let o := Outline.build "a.ts" "export const enum Color \x7b Red \x7d\n".toList .brace
    ∃ r ∈ o.types, r.exported = true ∧ ¬ ∃ e ∈ o.exports, e.line = r.line ∧ e.name = r.name := by
  decide +kernel

end CodeAtlas
