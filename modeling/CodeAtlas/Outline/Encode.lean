/-
Outlines as JSON.

Every field of a record is written, in the order of the record. A tag is written by
its name, and an absent value as null.
-/
import CodeAtlas.Json.Printer
import CodeAtlas.Outline.Record

set_option autoImplicit false

namespace CodeAtlas

open Json (strs nat)

def tagJson {α : Type} [Tag α] (a : α) : Json := .str (Tag.name a)

def textJson (t : Option String) : Json := Json.ofOption .str t

def tagJson? {α : Type} [Tag α] (a : Option α) : Json := Json.ofOption tagJson a

def Parameter.toJson (p : Parameter) : Json := .obj [
  ("name", .str p.name), ("type_text", textJson p.typeText), ("optional", .bool p.optional),
  ("default_value", textJson p.defaultValue), ("rest", .bool p.rest)]

def ErrorHandling.toJson (e : ErrorHandling) : Json := .obj [
  ("try_catch_blocks", nat e.tryBlocks), ("error_types", strs e.errorTypes),
  ("error_messages", strs e.errorMessages), ("fallbacks", strs e.fallbacks),
  ("logging", strs e.logging)]

def DataFlow.toJson (d : DataFlow) : Json := .obj [
  ("inputs", strs d.inputs), ("outputs", strs d.outputs),
  ("transformations", strs d.transformations), ("side_effects", strs d.sideEffects),
  ("data_structures", strs d.structures)]

def Performance.toJson (p : Performance) : Json :=
  .obj [("bottlenecks", strs p.bottlenecks), ("optimizations", strs p.optimizations)]

def Configuration.toJson (c : Configuration) : Json := .obj [
  ("environment_variables", strs c.environment), ("mentions_config", .bool c.mentionsConfig),
  ("mentions_secrets", .bool c.mentionsSecrets), ("has_validation", .bool c.hasValidation)]

def FunctionRecord.toJson (f : FunctionRecord) : Json := .obj [
  ("name", .str f.name), ("kind", tagJson f.kind), ("params", .arr (f.params.map (·.toJson))),
  ("return_type", textJson f.returnType), ("description", textJson f.description),
  ("full_doc", textJson f.fullDoc), ("location", .str f.location), ("line", nat f.line),
  ("exported", .bool f.exported), ("default_export", .bool f.defaultExport),
  ("visibility", tagJson? f.visibility), ("is_static", .bool f.isStatic),
  ("decorators", strs f.decorators), ("complexity", nat f.complexity),
  ("line_count", nat f.lineCount), ("dependencies", strs f.dependencies),
  ("business_logic", .str f.businessLogic), ("error_handling", f.errorHandling.toJson),
  ("data_flow", f.dataFlow.toJson), ("performance", f.performance.toJson)]

def Property.toJson (p : Property) : Json := .obj [
  ("name", .str p.name), ("type_text", textJson p.typeText),
  ("description", textJson p.description), ("exported", .bool p.exported),
  ("readonly", .bool p.readonly), ("optional", .bool p.optional),
  ("is_static", .bool p.isStatic), ("visibility", tagJson? p.visibility),
  ("default_value", textJson p.defaultValue)]

def ClassRecord.toJson (c : ClassRecord) : Json := .obj [
  ("name", .str c.name), ("description", textJson c.description),
  ("full_doc", textJson c.fullDoc), ("location", .str c.location), ("line", nat c.line),
  ("methods", .arr (c.methods.map (·.toJson))),
  ("properties", .arr (c.properties.map (·.toJson))), ("exported", .bool c.exported),
  ("default_export", .bool c.defaultExport), ("extends", textJson c.base),
  ("implements", strs c.interfaces), ("is_abstract", .bool c.isAbstract),
  ("decorators", strs c.decorators), ("line_count", nat c.lineCount),
  ("design_pattern", tagJson c.designPattern)]

def InterfaceRecord.toJson (i : InterfaceRecord) : Json := .obj [
  ("name", .str i.name), ("description", textJson i.description),
  ("full_doc", textJson i.fullDoc), ("location", .str i.location), ("line", nat i.line),
  ("exported", .bool i.exported), ("extends", strs i.bases),
  ("generic_params", strs i.typeParams), ("properties", .arr (i.properties.map (·.toJson))),
  ("methods", .arr (i.methods.map (·.toJson)))]

def TypeRecord.toJson (t : TypeRecord) : Json := .obj [
  ("name", .str t.name), ("kind", tagJson t.kind), ("description", textJson t.description),
  ("location", .str t.location), ("line", nat t.line), ("exported", .bool t.exported),
  ("value", textJson t.value)]

def ConstantRecord.toJson (c : ConstantRecord) : Json := .obj [
  ("name", .str c.name), ("type_text", textJson c.typeText),
  ("description", textJson c.description), ("exported", .bool c.exported),
  ("default_export", .bool c.defaultExport), ("location", .str c.location),
  ("line", nat c.line), ("value", textJson c.value)]

def ImportRecord.toJson (i : ImportRecord) : Json := .obj [
  ("module", .str i.module), ("names", strs i.names), ("is_default", .bool i.isDefault),
  ("is_namespace", .bool i.isNamespace), ("line", nat i.line), ("origin", tagJson? i.origin)]

def ExportRecord.toJson (e : ExportRecord) : Json := .obj [
  ("name", .str e.name), ("kind", tagJson e.kind), ("is_default", .bool e.isDefault),
  ("line", nat e.line)]

def Outline.toJson (o : Outline) : Json := .obj [
  ("path", .str o.path), ("family", tagJson o.family),
  ("functions", .arr (o.functions.map (·.toJson))),
  ("classes", .arr (o.classes.map (·.toJson))),
  ("interfaces", .arr (o.interfaces.map (·.toJson))),
  ("types", .arr (o.types.map (·.toJson))),
  ("constants", .arr (o.constants.map (·.toJson))),
  ("imports", .arr (o.imports.map (·.toJson))),
  ("exports", .arr (o.exports.map (·.toJson))),
  ("size", nat o.size), ("line_count", nat o.lineCount), ("complexity", nat o.complexity),
  ("purpose", tagJson o.purpose), ("business_domain", .str o.domain),
  ("architectural_layer", .str o.layer), ("configuration", o.configuration.toJson)]

/-- The outlines as one JSON text, indented. -/
def outlinesText (os : List Outline) : String := (Json.arr (os.map (·.toJson))).pretty

end CodeAtlas
