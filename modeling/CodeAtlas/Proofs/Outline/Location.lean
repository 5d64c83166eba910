/-
Where the records of an outline point.

A record says in which file, on which line and with how many lines it stands, and it has a
name. `Outline.located_build` says that all of this can be looked up: the file is the one
that was read, the line is one of its lines and has the name on it, and so far as a record
counts lines, they are lines of the file too.

The proof reads this off the header from which a record was made (`Scan.Origin`), whose
answer counts its lines from the header's first one (`Header.Name`).
-/
import CodeAtlas.Proofs.Header.Name
import CodeAtlas.Proofs.Scan.Origin

set_option autoImplicit false

namespace CodeAtlas

/-! ## What records say about lines -/

section

variable (path : String) (file : List Line)

/-- The place that a record gives: the file is the one that was read, and the name is on the
line. -/
structure Placed (location name : String) (line : Nat) : Prop where
  location : location = path
  named : NamedAt file name line

/-- A record counts at least its own line, and no line behind the last one. -/
structure Spans (line lineCount : Nat) : Prop where
  counted : 1 ≤ lineCount
  ends : line + lineCount - 1 ≤ file.length

structure FunctionRecord.Located (f : FunctionRecord) : Prop where
  placed : Placed path file f.location f.name f.line
  spans : Spans file f.line f.lineCount

structure ClassRecord.Located (c : ClassRecord) : Prop where
  placed : Placed path file c.location c.name c.line
  spans : Spans file c.line c.lineCount
  methods : ∀ f ∈ c.methods, f.Located path file

structure InterfaceRecord.Located (r : InterfaceRecord) : Prop where
  placed : Placed path file r.location r.name r.line
  methods : ∀ f ∈ r.methods, f.Located path file

/-- Everything in the outline stands where it says. -/
structure Outline.Located (o : Outline) : Prop where
  lineCount : o.lineCount = file.length
  functions : ∀ f ∈ o.functions, f.Located path file
  classes : ∀ c ∈ o.classes, c.Located path file
  interfaces : ∀ r ∈ o.interfaces, r.Located path file
  types : ∀ r ∈ o.types, Placed path file r.location r.name r.line
  constants : ∀ r ∈ o.constants, Placed path file r.location r.name r.line
  imports : ∀ r ∈ o.imports, 1 ≤ r.line ∧ r.line ≤ file.length
  exports : ∀ r ∈ o.exports, 1 ≤ r.line ∧ r.line ≤ file.length

end

variable {path : String} {family : Family} {file : List Line} {i : Nat}

/-! ## Headers in their file -/

/-- What a header of the file names stands where its answer says. -/
theorem Declared.isNamed {c : Construct} (h : Declared family file i c) :
    c.IsNamed (file.drop i) := by
  have hne := Moment.drop_ne_nil h.inFile
  obtain ⟨table, htable, name, hit⟩ := h.hit
  cases family with
  | brace =>
    simp only [Family.tables, List.mem_cons, List.not_mem_nil, or_false] at htable
    rcases htable with rfl | rfl
    · exact Brace.isNamed_of_outside hne hit
    · exact Brace.isNamed_of_inside hne hit
  | indent =>
    simp only [Family.tables, List.mem_cons, List.not_mem_nil, or_false] at htable
    rcases htable with rfl | rfl
    · exact Indent.isNamed_of_outside hne hit
    · exact Indent.isNamed_of_inside hne hit

theorem Construct.IsNamed.namedAt_head {ls : List Line} {c : Construct} {head : FunctionHead}
    (h : c.IsNamed ls) (hhead : c.head? = some head) : NamedAt ls head.name 1 := by
  cases c with
  | function head' | method head' =>
    obtain rfl := Option.some.inj hhead
    exact h
  | _ => simp [head?] at hhead

/-- A name on the first line of a header is on the line that a record has. -/
theorem NamedAt.header {name : String} (h : NamedAt (file.drop i) name 1) :
    NamedAt file name (i + 1) := by
  rw [Nat.add_comm]
  exact h.of_drop

/-! ## Records with an origin -/

theorem FunctionRecord.HasOrigin.located {f : FunctionRecord}
    (h : f.HasOrigin path family file) : f.Located path file := by
  obtain ⟨i, extent, head, ⟨c, hdecl, hhead⟩, hends, doc, decorators, heq⟩ := h
  have hnamed := (hdecl.isNamed.namedAt_head hhead).header
  have hspans : Spans file (i + 1) (extent + 1) := ⟨Nat.le_add_left 1 extent, by omega⟩
  -- being marked as a method changes neither the place nor the name
  rcases heq with rfl | rfl
  · exact ⟨⟨rfl, hnamed⟩, hspans⟩
  · exact ⟨⟨rfl, hnamed⟩, hspans⟩

theorem ClassScope.HasOrigin.located {c : ClassScope} (h : c.HasOrigin path family file)
    (hkept : c.start ≤ c.stop) (hends : c.stop < file.length) :
    c.finish.Located path file := by
  obtain ⟨i, head, doc, decorators, hdecl, hopening⟩ := h.opened
  have hstart : c.start = i := congrArg ClassOpening.start hopening
  have hrecord : c.record.bare = (classRecord path head i doc decorators).bare :=
    congrArg ClassOpening.record hopening
  have hname : c.record.name = head.name := congrArg ClassRecord.name hrecord
  have hline : c.record.line = i + 1 := congrArg ClassRecord.line hrecord
  have hlocation : c.record.location = path := congrArg ClassRecord.location hrecord
  refine ⟨⟨hlocation, ?_⟩, ⟨Nat.le_add_left 1 c.extent, ?_⟩, fun f hf => (h.methods f hf).located⟩
  · show NamedAt file c.record.name c.record.line
    rw [hname, hline]
    exact NamedAt.header hdecl.isNamed
  · rw [ClassScope.finish_line, ClassScope.finish_lineCount, hline, ClassScope.extent]
    omega

/-- An interface is placed with its methods, each of which has one line. -/
theorem located_interface {r : InterfaceRecord} {description full : Option String}
    (h : Declared family file i (.interface r)) :
    InterfaceRecord.Located path file
      { r.shift i with
        description, fullDoc := full, location := path,
        methods := (r.shift i).methods.map fun m => { m with location := path } } := by
  obtain ⟨hname, hmethods⟩ := h.isNamed
  refine ⟨⟨rfl, hname.of_drop⟩, fun f hf => ?_⟩
  obtain ⟨f', hf', rfl⟩ := List.mem_map.mp hf
  obtain ⟨f₀, hf₀, rfl⟩ := List.mem_map.mp hf'
  obtain ⟨hnamed, hcount⟩ := hmethods f₀ hf₀
  have hplaced := hnamed.of_drop
  have hlast := hplaced.last
  refine ⟨⟨rfl, hplaced⟩, ?_⟩
  simp only [FunctionRecord.shift, hcount]
  exact ⟨Nat.le_refl 1, by omega⟩

/-- Whatever stands on the first line of a header stands in the file. -/
theorem Declared.line_bounds {c : Construct} (h : Declared family file i c) :
    1 ≤ 1 + i ∧ 1 + i ≤ file.length := by
  have hlt := h.inFile
  omega

/-! ## Outlines -/

/-- Every record of an outline names the file that was read, and has its name on its line;
the lines that it counts are lines of the file. Imports and exports stand on lines of the
file too. -/
theorem Outline.located_build (path : String) (content : List Char) (family : Family) :
    (Outline.build path content family).Located path (Text.lines content) := by
  have hholds := Outline.holds_build path content family
  have horigin : ∀ item ∈ (Moment.last path family (Text.lines content)).allItems,
      item.HasOrigin path family (Text.lines content) := fun _ => hasOrigin_of_mem_allItems
  constructor
  · exact Outline.lineCount_build path content family
  · intro f hf
    exact FunctionRecord.HasOrigin.located (horigin _ (hholds.mem_functions.mp hf))
  · intro c hc
    obtain ⟨scope, hscope, hkept, hends, rfl⟩ := horigin _ (hholds.mem_classes.mp hc)
    exact hscope.located hkept hends
  · intro r hr
    obtain ⟨i, r₀, description, full, hdecl, rfl⟩ := horigin _ (hholds.mem_interfaces.mp hr)
    exact located_interface hdecl
  · intro r hr
    obtain ⟨i, r₀, description, hdecl, rfl⟩ := horigin _ (hholds.mem_types.mp hr)
    exact ⟨rfl, NamedAt.of_drop hdecl.isNamed⟩
  · intro r hr
    obtain ⟨i, r₀, description, hdecl, rfl⟩ := horigin _ (hholds.mem_constants.mp hr)
    exact ⟨rfl, NamedAt.of_drop hdecl.isNamed⟩
  · intro r hr
    obtain ⟨i, rs, hdecl, r₀, hr₀, rfl⟩ := horigin _ (hholds.mem_imports.mp hr)
    have hline : r₀.line = 1 := hdecl.isLocal r₀ hr₀
    rw [ImportRecord.shift, hline]
    exact hdecl.line_bounds
  · intro r hr
    obtain ⟨i, hlt, hline⟩ := horigin _ (hholds.mem_exports.mp hr)
    rw [hline]
    omega

end CodeAtlas
