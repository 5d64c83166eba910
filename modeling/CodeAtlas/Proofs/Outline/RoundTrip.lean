/-
Outlines are read back from their JSON.

Each record is read back by the lemmas for the kinds of its fields, in the order in which
they are written; so a field that the writer and the reader name differently, or put
elsewhere, or give another default, has no proof here. The shape of a record needs only
the fields that hold records themselves: its names and its defaults are those of the
default record as it is written.
-/
import CodeAtlas.Outline.Decode
import CodeAtlas.Proofs.Json.Lenient

set_option autoImplicit false

namespace CodeAtlas

open Json

/-! ## Records that fit into their types -/

structure ErrorHandling.Fits (e : ErrorHandling) : Prop where
  tryBlocks : e.tryBlocks < Nat.pow 2 64

structure FunctionRecord.Fits (f : FunctionRecord) : Prop where
  line : f.line < Nat.pow 2 64
  complexity : f.complexity < Nat.pow 2 32
  lineCount : f.lineCount < Nat.pow 2 64
  errorHandling : f.errorHandling.Fits

structure ClassRecord.Fits (c : ClassRecord) : Prop where
  line : c.line < Nat.pow 2 64
  methods : ∀ f ∈ c.methods, f.Fits
  lineCount : c.lineCount < Nat.pow 2 64

structure InterfaceRecord.Fits (i : InterfaceRecord) : Prop where
  line : i.line < Nat.pow 2 64
  methods : ∀ f ∈ i.methods, f.Fits

/-- Everything that is counted in an outline fits into the type in which it is kept. -/
structure Outline.Fits (o : Outline) : Prop where
  functions : ∀ f ∈ o.functions, f.Fits
  classes : ∀ c ∈ o.classes, c.Fits
  interfaces : ∀ i ∈ o.interfaces, i.Fits
  types : ∀ t ∈ o.types, t.line < Nat.pow 2 64
  constants : ∀ c ∈ o.constants, c.line < Nat.pow 2 64
  imports : ∀ i ∈ o.imports, i.line < Nat.pow 2 64
  exports : ∀ e ∈ o.exports, e.line < Nat.pow 2 64
  size : o.size < Nat.pow 2 64
  lineCount : o.lineCount < Nat.pow 2 64
  complexity : o.complexity < Nat.pow 2 32

/-! ## Records without records in them -/

def Parameter.shape : Shape := .record (toJson {}).fields fun _ => .plain

theorem Parameter.faithful (p : Parameter) : Faithful shape ofJson? toJson p := by
  refine FaithfulFields.faithful ?_ rfl (by decide)
  exact .text rfl <| .textOption rfl <| .flag rfl <| .textOption rfl <| .flag rfl <| .done p

def ErrorHandling.shape : Shape := .record (toJson {}).fields fun _ => .plain

theorem ErrorHandling.faithful {e : ErrorHandling} (h : e.Fits) :
    Faithful shape ofJson? toJson e := by
  refine FaithfulFields.faithful ?_ rfl (by decide)
  exact .count rfl h.tryBlocks <| .texts rfl <| .texts rfl <| .texts rfl <| .texts rfl <| .done e

def DataFlow.shape : Shape := .record (toJson {}).fields fun _ => .plain

theorem DataFlow.faithful (d : DataFlow) : Faithful shape ofJson? toJson d := by
  refine FaithfulFields.faithful ?_ rfl (by decide)
  exact .texts rfl <| .texts rfl <| .texts rfl <| .texts rfl <| .texts rfl <| .done d

def Performance.shape : Shape := .record (toJson {}).fields fun _ => .plain

theorem Performance.faithful (p : Performance) : Faithful shape ofJson? toJson p := by
  refine FaithfulFields.faithful ?_ rfl (by decide)
  exact .texts rfl <| .texts rfl <| .done p

def Configuration.shape : Shape := .record (toJson {}).fields fun _ => .plain

theorem Configuration.faithful (c : Configuration) : Faithful shape ofJson? toJson c := by
  refine FaithfulFields.faithful ?_ rfl (by decide)
  exact .texts rfl <| .flag rfl <| .flag rfl <| .flag rfl <| .done c

def Property.shape : Shape := .record (toJson {}).fields fun _ => .plain

theorem Property.faithful (p : Property) : Faithful shape ofJson? toJson p := by
  refine FaithfulFields.faithful ?_ rfl (by decide)
  exact .text rfl <| .textOption rfl <| .textOption rfl <| .flag rfl <| .flag rfl <| .flag rfl <|
    .flag rfl <| .tagOption rfl <| .textOption rfl <| .done p

def TypeRecord.shape : Shape := .record (toJson {}).fields fun _ => .plain

theorem TypeRecord.faithful {t : TypeRecord} (h : t.line < Nat.pow 2 64) :
    Faithful shape ofJson? toJson t := by
  refine FaithfulFields.faithful ?_ rfl (by decide)
  exact .text rfl <| .tag rfl <| .textOption rfl <| .text rfl <| .count rfl h <| .flag rfl <|
    .textOption rfl <| .done t

def ConstantRecord.shape : Shape := .record (toJson {}).fields fun _ => .plain

theorem ConstantRecord.faithful {c : ConstantRecord} (h : c.line < Nat.pow 2 64) :
    Faithful shape ofJson? toJson c := by
  refine FaithfulFields.faithful ?_ rfl (by decide)
  exact .text rfl <| .textOption rfl <| .textOption rfl <| .flag rfl <| .flag rfl <| .text rfl <|
    .count rfl h <| .textOption rfl <| .done c

def ImportRecord.shape : Shape := .record (toJson {}).fields fun _ => .plain

theorem ImportRecord.faithful {i : ImportRecord} (h : i.line < Nat.pow 2 64) :
    Faithful shape ofJson? toJson i := by
  refine FaithfulFields.faithful ?_ rfl (by decide)
  exact .text rfl <| .texts rfl <| .flag rfl <| .flag rfl <| .count rfl h <| .tagOption rfl <|
    .done i

def ExportRecord.shape : Shape := .record (toJson {}).fields fun _ => .plain

theorem ExportRecord.faithful {e : ExportRecord} (h : e.line < Nat.pow 2 64) :
    Faithful shape ofJson? toJson e := by
  refine FaithfulFields.faithful ?_ rfl (by decide)
  exact .text rfl <| .tag rfl <| .flag rfl <| .count rfl h <| .done e

/-! ## Records of records -/

def FunctionRecord.shape : Shape := .record (toJson {}).fields fun
  | "params" => .list Parameter.shape
  | "error_handling" => ErrorHandling.shape
  | "data_flow" => DataFlow.shape
  | "performance" => Performance.shape
  | _ => .plain

theorem FunctionRecord.faithful {f : FunctionRecord} (h : f.Fits) :
    Faithful shape ofJson? toJson f := by
  refine FaithfulFields.faithful ?_ rfl (by decide)
  have herrors : ({} : ErrorHandling).Fits := ⟨by decide⟩
  exact .text rfl <| .tag rfl <| .list rfl (fun p _ => p.faithful) <| .textOption rfl <|
    .textOption rfl <| .textOption rfl <| .text rfl <| .count rfl h.line <| .flag rfl <|
    .flag rfl <| .tagOption rfl <| .flag rfl <| .texts rfl <| .score rfl h.complexity <|
    .count rfl h.lineCount <| .texts rfl <| .text rfl <|
    .next (ErrorHandling.faithful h.errorHandling) (ErrorHandling.faithful herrors) <|
    .next (DataFlow.faithful _) (DataFlow.faithful _) <|
    .next (Performance.faithful _) (Performance.faithful _) <| .done f

def ClassRecord.shape : Shape := .record (toJson {}).fields fun
  | "methods" => .list FunctionRecord.shape
  | "properties" => .list Property.shape
  | _ => .plain

theorem ClassRecord.faithful {c : ClassRecord} (h : c.Fits) :
    Faithful shape ofJson? toJson c := by
  refine FaithfulFields.faithful ?_ rfl (by decide)
  exact .text rfl <| .textOption rfl <| .textOption rfl <| .text rfl <| .count rfl h.line <|
    .list rfl (fun f hf => FunctionRecord.faithful (h.methods f hf)) <|
    .list rfl (fun p _ => p.faithful) <| .flag rfl <| .flag rfl <| .textOption rfl <| .texts rfl <|
    .flag rfl <| .texts rfl <| .count rfl h.lineCount <| .tag rfl <| .done c

def InterfaceRecord.shape : Shape := .record (toJson {}).fields fun
  | "properties" => .list Property.shape
  | "methods" => .list FunctionRecord.shape
  | _ => .plain

theorem InterfaceRecord.faithful {i : InterfaceRecord} (h : i.Fits) :
    Faithful shape ofJson? toJson i := by
  refine FaithfulFields.faithful ?_ rfl (by decide)
  exact .text rfl <| .textOption rfl <| .textOption rfl <| .text rfl <| .count rfl h.line <|
    .flag rfl <| .texts rfl <| .texts rfl <| .list rfl (fun p _ => p.faithful) <|
    .list rfl (fun f hf => FunctionRecord.faithful (h.methods f hf)) <| .done i

def Outline.shape : Shape := .record (toJson {}).fields fun
  | "functions" => .list FunctionRecord.shape
  | "classes" => .list ClassRecord.shape
  | "interfaces" => .list InterfaceRecord.shape
  | "types" => .list TypeRecord.shape
  | "constants" => .list ConstantRecord.shape
  | "imports" => .list ImportRecord.shape
  | "exports" => .list ExportRecord.shape
  | "configuration" => Configuration.shape
  | _ => .plain

theorem Outline.faithful {o : Outline} (h : o.Fits) : Faithful shape ofJson? toJson o := by
  refine FaithfulFields.faithful ?_ rfl (by decide)
  exact .text rfl <| .tag rfl <|
    .list rfl (fun f hf => FunctionRecord.faithful (h.functions f hf)) <|
    .list rfl (fun c hc => ClassRecord.faithful (h.classes c hc)) <|
    .list rfl (fun i hi => InterfaceRecord.faithful (h.interfaces i hi)) <|
    .list rfl (fun t ht => TypeRecord.faithful (h.types t ht)) <|
    .list rfl (fun c hc => ConstantRecord.faithful (h.constants c hc)) <|
    .list rfl (fun i hi => ImportRecord.faithful (h.imports i hi)) <|
    .list rfl (fun e he => ExportRecord.faithful (h.exports e he)) <| .count rfl h.size <|
    .count rfl h.lineCount <| .score rfl h.complexity <| .tag rfl <| .text rfl <| .text rfl <|
    .next (Configuration.faithful _) (Configuration.faithful _) <| .done o

/-! ## Lists of outlines -/

/-- The outlines as a value. -/
def outlinesJson (os : List Outline) : Json := .arr (os.map (·.toJson))

theorem faithful_outlines {os : List Outline} (h : ∀ o ∈ os, o.Fits) :
    Faithful (.list Outline.shape) (list? Outline.ofJson?) outlinesJson os :=
  faithful_list fun o ho => Outline.faithful (h o ho)

theorem outlinesOfText?_of_read? {os : List Outline} (h : ∀ o ∈ os, o.Fits) {j : Json}
    (hrelaxed : Relaxed (.list Outline.shape) (outlinesJson os) j) {t : String}
    (ht : read? none t.toList = some j) : outlinesOfText? t = some os := by
  rw [outlinesOfText?, ht, Option.bind_some]
  exact (faithful_outlines h).reads j hrelaxed

end CodeAtlas
