/-
Outlines from JSON.

The reader beside the writer: each record is read field by field, in the order in
which the fields are written, and a field that is missing has its default.
-/
import CodeAtlas.Json.Decode
import CodeAtlas.Json.Reader
import CodeAtlas.Outline.Record

set_option autoImplicit false

namespace CodeAtlas

open Json

def Parameter.ofJson? : Decoder Parameter := record? do
  return {
    name := ← next "name" text? "",
    typeText := ← next "type_text" textOption? none,
    optional := ← next "optional" bool? false,
    defaultValue := ← next "default_value" textOption? none,
    rest := ← next "rest" bool? false }

def ErrorHandling.ofJson? : Decoder ErrorHandling := record? do
  return {
    tryBlocks := ← next "try_catch_blocks" count? 0,
    errorTypes := ← next "error_types" texts? [],
    errorMessages := ← next "error_messages" texts? [],
    fallbacks := ← next "fallbacks" texts? [],
    logging := ← next "logging" texts? [] }

def DataFlow.ofJson? : Decoder DataFlow := record? do
  return {
    inputs := ← next "inputs" texts? [],
    outputs := ← next "outputs" texts? [],
    transformations := ← next "transformations" texts? [],
    sideEffects := ← next "side_effects" texts? [],
    structures := ← next "data_structures" texts? [] }

def Performance.ofJson? : Decoder Performance := record? do
  return {
    bottlenecks := ← next "bottlenecks" texts? [],
    optimizations := ← next "optimizations" texts? [] }

def Configuration.ofJson? : Decoder Configuration := record? do
  return {
    environment := ← next "environment_variables" texts? [],
    mentionsConfig := ← next "mentions_config" bool? false,
    mentionsSecrets := ← next "mentions_secrets" bool? false,
    hasValidation := ← next "has_validation" bool? false }

def FunctionRecord.ofJson? : Decoder FunctionRecord := record? do
  return {
    name := ← next "name" text? "",
    kind := ← next "kind" tag? default,
    params := ← next "params" (list? Parameter.ofJson?) [],
    returnType := ← next "return_type" textOption? none,
    description := ← next "description" textOption? none,
    fullDoc := ← next "full_doc" textOption? none,
    location := ← next "location" text? "",
    line := ← next "line" count? 0,
    exported := ← next "exported" bool? false,
    defaultExport := ← next "default_export" bool? false,
    visibility := ← next "visibility" (option? tag?) none,
    isStatic := ← next "is_static" bool? false,
    decorators := ← next "decorators" texts? [],
    complexity := ← next "complexity" score? 0,
    lineCount := ← next "line_count" count? 0,
    dependencies := ← next "dependencies" texts? [],
    businessLogic := ← next "business_logic" text? "",
    errorHandling := ← next "error_handling" ErrorHandling.ofJson? {},
    dataFlow := ← next "data_flow" DataFlow.ofJson? {},
    performance := ← next "performance" Performance.ofJson? {} }

def Property.ofJson? : Decoder Property := record? do
  return {
    name := ← next "name" text? "",
    typeText := ← next "type_text" textOption? none,
    description := ← next "description" textOption? none,
    exported := ← next "exported" bool? false,
    readonly := ← next "readonly" bool? false,
    optional := ← next "optional" bool? false,
    isStatic := ← next "is_static" bool? false,
    visibility := ← next "visibility" (option? tag?) none,
    defaultValue := ← next "default_value" textOption? none }

def ClassRecord.ofJson? : Decoder ClassRecord := record? do
  return {
    name := ← next "name" text? "",
    description := ← next "description" textOption? none,
    fullDoc := ← next "full_doc" textOption? none,
    location := ← next "location" text? "",
    line := ← next "line" count? 0,
    methods := ← next "methods" (list? FunctionRecord.ofJson?) [],
    properties := ← next "properties" (list? Property.ofJson?) [],
    exported := ← next "exported" bool? false,
    defaultExport := ← next "default_export" bool? false,
    base := ← next "extends" textOption? none,
    interfaces := ← next "implements" texts? [],
    isAbstract := ← next "is_abstract" bool? false,
    decorators := ← next "decorators" texts? [],
    lineCount := ← next "line_count" count? 0,
    designPattern := ← next "design_pattern" tag? default }

def InterfaceRecord.ofJson? : Decoder InterfaceRecord := record? do
  return {
    name := ← next "name" text? "",
    description := ← next "description" textOption? none,
    fullDoc := ← next "full_doc" textOption? none,
    location := ← next "location" text? "",
    line := ← next "line" count? 0,
    exported := ← next "exported" bool? false,
    bases := ← next "extends" texts? [],
    typeParams := ← next "generic_params" texts? [],
    properties := ← next "properties" (list? Property.ofJson?) [],
    methods := ← next "methods" (list? FunctionRecord.ofJson?) [] }

def TypeRecord.ofJson? : Decoder TypeRecord := record? do
  return {
    name := ← next "name" text? "",
    kind := ← next "kind" tag? default,
    description := ← next "description" textOption? none,
    location := ← next "location" text? "",
    line := ← next "line" count? 0,
    exported := ← next "exported" bool? false,
    value := ← next "value" textOption? none }

def ConstantRecord.ofJson? : Decoder ConstantRecord := record? do
  return {
    name := ← next "name" text? "",
    typeText := ← next "type_text" textOption? none,
    description := ← next "description" textOption? none,
    exported := ← next "exported" bool? false,
    defaultExport := ← next "default_export" bool? false,
    location := ← next "location" text? "",
    line := ← next "line" count? 0,
    value := ← next "value" textOption? none }

def ImportRecord.ofJson? : Decoder ImportRecord := record? do
  return {
    module := ← next "module" text? "",
    names := ← next "names" texts? [],
    isDefault := ← next "is_default" bool? false,
    isNamespace := ← next "is_namespace" bool? false,
    line := ← next "line" count? 0,
    origin := ← next "origin" (option? tag?) none }

def ExportRecord.ofJson? : Decoder ExportRecord := record? do
  return {
    name := ← next "name" text? "",
    kind := ← next "kind" tag? default,
    isDefault := ← next "is_default" bool? false,
    line := ← next "line" count? 0 }

def Outline.ofJson? : Decoder Outline := record? do
  return {
    path := ← next "path" text? "",
    family := ← next "family" tag? default,
    functions := ← next "functions" (list? FunctionRecord.ofJson?) [],
    classes := ← next "classes" (list? ClassRecord.ofJson?) [],
    interfaces := ← next "interfaces" (list? InterfaceRecord.ofJson?) [],
    types := ← next "types" (list? TypeRecord.ofJson?) [],
    constants := ← next "constants" (list? ConstantRecord.ofJson?) [],
    imports := ← next "imports" (list? ImportRecord.ofJson?) [],
    exports := ← next "exports" (list? ExportRecord.ofJson?) [],
    size := ← next "size" count? 0,
    lineCount := ← next "line_count" count? 0,
    complexity := ← next "complexity" score? 0,
    purpose := ← next "purpose" tag? default,
    domain := ← next "business_domain" text? "",
    layer := ← next "architectural_layer" text? "",
    configuration := ← next "configuration" Configuration.ofJson? {} }

/-- Outlines from a JSON text. -/
def outlinesOfText? (t : String) : Option (List Outline) :=
  (Json.read? none t.toList).bind (list? Outline.ofJson?)

end CodeAtlas
