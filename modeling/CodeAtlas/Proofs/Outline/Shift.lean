/-
Outlines behind lines that were passed.

An outline that continues with the outline of some lines may also be asked whether it
continues with that of more lines, those in front of them included. It does exactly if the lines in
front add nothing (`Continues.iff_of_passed`). For this, moving a record down has to lose
nothing, and moving it down twice has to be moving it down once by as many lines; both hold of
the records of every kind.
-/
import CodeAtlas.Proofs.Scan.Suffix

set_option autoImplicit false

namespace CodeAtlas

/-- The records can be moved down in parts, and a record that was moved down is still known. -/
structure MovesDown {α : Type} (shift : Nat → α → α) : Prop where
  add : ∀ (n h : Nat) (r : α), shift (n + h) r = shift n (shift h r)
  injective : ∀ n, Function.Injective (shift n)

namespace MovesDown

/-- A list continues with the records of more lines exactly if the lines in front have none. -/
theorem append_map_eq_iff {α : Type} {shift : Nat → α → α} (hshift : MovesDown shift) {n h : Nat}
    {own more rest : List α} :
    own ++ rest.map (shift (n + h)) = own ++ more.map (shift n) ↔ more = rest.map (shift h) := by
  have hparts : rest.map (shift (n + h)) = (rest.map (shift h)).map (shift n) := by
    rw [List.map_map]
    exact List.map_congr_left fun r _ => hshift.add n h r
  rw [hparts, List.append_cancel_left_eq, (hshift.injective n).list_map.eq_iff]
  exact eq_comm

theorem functionRecord : MovesDown FunctionRecord.shift where
  add n h r := by rw [Nat.add_comm, r.shift_shift]
  injective n r r' heq := by
    cases r
    cases r'
    simp only [FunctionRecord.shift, FunctionRecord.mk.injEq, Nat.add_right_cancel_iff] at heq
    simpa only [FunctionRecord.mk.injEq] using heq

theorem methods_add (n h : Nat) (fs : List FunctionRecord) :
    fs.map (·.shift (n + h)) = (fs.map (·.shift h)).map (·.shift n) := by
  rw [List.map_map]
  exact List.map_congr_left fun f _ => functionRecord.add n h f

theorem methods_inj {n : Nat} {fs fs' : List FunctionRecord} :
    fs.map (·.shift n) = fs'.map (·.shift n) ↔ fs = fs' :=
  (functionRecord.injective n).list_map.eq_iff

theorem classRecord : MovesDown ClassRecord.shift where
  add n h r := by
    have hline : r.line + (n + h) = r.line + h + n := by omega
    simp only [ClassRecord.shift, methods_add, hline]
  injective n r r' heq := by
    cases r
    cases r'
    simp only [ClassRecord.shift, ClassRecord.mk.injEq, Nat.add_right_cancel_iff,
      methods_inj] at heq
    simpa only [ClassRecord.mk.injEq] using heq

theorem interfaceRecord : MovesDown InterfaceRecord.shift where
  add n h r := by
    have hline : r.line + (n + h) = r.line + h + n := by omega
    simp only [InterfaceRecord.shift, methods_add, hline]
  injective n r r' heq := by
    cases r
    cases r'
    simp only [InterfaceRecord.shift, InterfaceRecord.mk.injEq, Nat.add_right_cancel_iff,
      methods_inj] at heq
    simpa only [InterfaceRecord.mk.injEq] using heq

theorem typeRecord : MovesDown TypeRecord.shift where
  add n h r := by simp only [TypeRecord.shift, Nat.add_assoc, Nat.add_comm n]
  injective n r r' heq := by
    cases r
    cases r'
    simp only [TypeRecord.shift, TypeRecord.mk.injEq, Nat.add_right_cancel_iff] at heq
    simpa only [TypeRecord.mk.injEq] using heq

theorem constantRecord : MovesDown ConstantRecord.shift where
  add n h r := by simp only [ConstantRecord.shift, Nat.add_assoc, Nat.add_comm n]
  injective n r r' heq := by
    cases r
    cases r'
    simp only [ConstantRecord.shift, ConstantRecord.mk.injEq, Nat.add_right_cancel_iff] at heq
    simpa only [ConstantRecord.mk.injEq] using heq

theorem importRecord : MovesDown ImportRecord.shift where
  add n h r := by simp only [ImportRecord.shift, Nat.add_assoc, Nat.add_comm n]
  injective n r r' heq := by
    cases r
    cases r'
    simp only [ImportRecord.shift, ImportRecord.mk.injEq, Nat.add_right_cancel_iff] at heq
    simpa only [ImportRecord.mk.injEq] using heq

theorem exportRecord : MovesDown ExportRecord.shift where
  add n h r := by simp only [ExportRecord.shift, Nat.add_assoc, Nat.add_comm n]
  injective n r r' heq := by
    cases r
    cases r'
    simp only [ExportRecord.shift, ExportRecord.mk.injEq, Nat.add_right_cancel_iff] at heq
    simpa only [ExportRecord.mk.injEq] using heq

end MovesDown

/-- Where an outline continues behind `h` lines with the outline of the rest, it continues in
front of them with the outline of all exactly if that one is the outline of the rest, moved
down by the `h` lines. -/
theorem Outline.Continues.iff_of_passed {o more rest : Outline} {items : List Item} {n h : Nat}
    (hrest : o.Continues items (n + h) rest) :
    o.Continues items n more ↔ more.Continues [] h rest := by
  -- for each kind of record, equal lists are taken away in front of what is compared
  constructor
  · intro hmore
    exact {
      functions := MovesDown.functionRecord.append_map_eq_iff.mp
        (hrest.functions.symm.trans hmore.functions)
      classes := MovesDown.classRecord.append_map_eq_iff.mp
        (hrest.classes.symm.trans hmore.classes)
      interfaces := MovesDown.interfaceRecord.append_map_eq_iff.mp
        (hrest.interfaces.symm.trans hmore.interfaces)
      types := MovesDown.typeRecord.append_map_eq_iff.mp (hrest.types.symm.trans hmore.types)
      constants := MovesDown.constantRecord.append_map_eq_iff.mp
        (hrest.constants.symm.trans hmore.constants)
      imports := MovesDown.importRecord.append_map_eq_iff.mp
        (hrest.imports.symm.trans hmore.imports)
      exports := MovesDown.exportRecord.append_map_eq_iff.mp
        (hrest.exports.symm.trans hmore.exports) }
  · intro hmore
    exact {
      functions := hrest.functions.trans
        (MovesDown.functionRecord.append_map_eq_iff.mpr hmore.functions)
      classes := hrest.classes.trans
        (MovesDown.classRecord.append_map_eq_iff.mpr hmore.classes)
      interfaces := hrest.interfaces.trans
        (MovesDown.interfaceRecord.append_map_eq_iff.mpr hmore.interfaces)
      types := hrest.types.trans (MovesDown.typeRecord.append_map_eq_iff.mpr hmore.types)
      constants := hrest.constants.trans
        (MovesDown.constantRecord.append_map_eq_iff.mpr hmore.constants)
      imports := hrest.imports.trans
        (MovesDown.importRecord.append_map_eq_iff.mpr hmore.imports)
      exports := hrest.exports.trans
        (MovesDown.exportRecord.append_map_eq_iff.mpr hmore.exports) }

end CodeAtlas
