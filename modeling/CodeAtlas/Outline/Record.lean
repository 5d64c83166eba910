/-
The records of an outline.

An outline tells what one source file declares, takes from elsewhere and gives away.
Lines are counted from one. Every field has a default, so that a record can be
written with the fields that matter, and read from data that leaves some out.
-/
import CodeAtlas.Outline.Tag
import CodeAtlas.Sum

set_option autoImplicit false

namespace CodeAtlas

/-! ## What the analysis of a body finds -/

/-- How a body deals with errors. -/
structure ErrorHandling where
  tryBlocks : Nat := 0
  errorTypes : List String := []
  errorMessages : List String := []
  fallbacks : List String := []
  logging : List String := []
  deriving DecidableEq, Repr, Inhabited

/-- What a body does with data. -/
structure DataFlow where
  inputs : List String := []
  outputs : List String := []
  transformations : List String := []
  sideEffects : List String := []
  structures : List String := []
  deriving DecidableEq, Repr, Inhabited

/-- Where a body may be slow, and what it does about it. -/
structure Performance where
  bottlenecks : List String := []
  optimizations : List String := []
  deriving DecidableEq, Repr, Inhabited

/-- What a file has to do with configuration. -/
structure Configuration where
  environment : List String := []
  mentionsConfig : Bool := false
  mentionsSecrets : Bool := false
  hasValidation : Bool := false
  deriving DecidableEq, Repr, Inhabited

/-! ## What a file declares -/

/-- A parameter of a function; `rest` marks one that takes all further arguments. -/
structure Parameter where
  name : String := ""
  typeText : Option String := none
  optional : Bool := false
  defaultValue : Option String := none
  rest : Bool := false
  deriving DecidableEq, Repr, Inhabited

/-- A function or a method. -/
structure FunctionRecord where
  name : String := ""
  kind : FunctionKind := .function
  params : List Parameter := []
  returnType : Option String := none
  description : Option String := none
  fullDoc : Option String := none
  location : String := ""
  line : Nat := 0
  exported : Bool := false
  defaultExport : Bool := false
  visibility : Option Visibility := none
  isStatic : Bool := false
  decorators : List String := []
  complexity : Nat := 0
  lineCount : Nat := 0
  dependencies : List String := []
  businessLogic : String := ""
  errorHandling : ErrorHandling := {}
  dataFlow : DataFlow := {}
  performance : Performance := {}
  deriving DecidableEq, Repr, Inhabited

/-- A property of a class or an interface. -/
structure Property where
  name : String := ""
  typeText : Option String := none
  description : Option String := none
  exported : Bool := false
  readonly : Bool := false
  optional : Bool := false
  isStatic : Bool := false
  visibility : Option Visibility := none
  defaultValue : Option String := none
  deriving DecidableEq, Repr, Inhabited

/-- A class with its members; `base` is what it extends, `interfaces` what it implements. -/
structure ClassRecord where
  name : String := ""
  description : Option String := none
  fullDoc : Option String := none
  location : String := ""
  line : Nat := 0
  methods : List FunctionRecord := []
  properties : List Property := []
  exported : Bool := false
  defaultExport : Bool := false
  base : Option String := none
  interfaces : List String := []
  isAbstract : Bool := false
  decorators : List String := []
  lineCount : Nat := 0
  designPattern : DesignPattern := .standardClass
  deriving DecidableEq, Repr, Inhabited

structure InterfaceRecord where
  name : String := ""
  description : Option String := none
  fullDoc : Option String := none
  location : String := ""
  line : Nat := 0
  exported : Bool := false
  bases : List String := []
  typeParams : List String := []
  properties : List Property := []
  methods : List FunctionRecord := []
  deriving DecidableEq, Repr, Inhabited

/-- A type alias, an enumeration or a namespace; only an alias has a value. -/
structure TypeRecord where
  name : String := ""
  kind : TypeKind := .type
  description : Option String := none
  location : String := ""
  line : Nat := 0
  exported : Bool := false
  value : Option String := none
  deriving DecidableEq, Repr, Inhabited

structure ConstantRecord where
  name : String := ""
  typeText : Option String := none
  description : Option String := none
  exported : Bool := false
  defaultExport : Bool := false
  location : String := ""
  line : Nat := 0
  value : Option String := none
  deriving DecidableEq, Repr, Inhabited

/-- What a file takes from one module. -/
structure ImportRecord where
  module : String := ""
  names : List String := []
  isDefault : Bool := false
  isNamespace : Bool := false
  line : Nat := 0
  origin : Option ImportOrigin := none
  deriving DecidableEq, Repr, Inhabited

/-- One name that leaves a file. -/
structure ExportRecord where
  name : String := ""
  kind : ExportKind := .constant
  isDefault : Bool := false
  line : Nat := 0
  deriving DecidableEq, Repr, Inhabited

/-! ## The outline of a file -/

/-- Everything that is told about one source file. -/
structure Outline where
  path : String := ""
  family : Family := .brace
  functions : List FunctionRecord := []
  classes : List ClassRecord := []
  interfaces : List InterfaceRecord := []
  types : List TypeRecord := []
  constants : List ConstantRecord := []
  imports : List ImportRecord := []
  exports : List ExportRecord := []
  size : Nat := 0
  lineCount : Nat := 0
  complexity : Nat := 0
  purpose : Purpose := .general
  domain : String := ""
  layer : String := ""
  configuration : Configuration := {}
  deriving DecidableEq, Repr, Inhabited

namespace Outline

/-- The directory part of the path; empty for a file in the root. -/
def directory (o : Outline) : String :=
  match Text.cutLast? '/' o.path.toList with
  | some (dir, _) => String.ofList dir
  | none => ""

/-- The last part of the path. -/
def fileName (o : Outline) : String :=
  match Text.cutLast? '/' o.path.toList with
  | some (_, name) => String.ofList name
  | none => o.path

/-- The names that leave the file, each once: those of exported declarations, then
those of export statements. -/
def exportedNames (o : Outline) : List String :=
  Text.unrepeated <|
    (o.functions.filter (·.exported)).map (·.name) ++
    (o.classes.filter (·.exported)).map (·.name) ++
    (o.interfaces.filter (·.exported)).map (·.name) ++
    (o.types.filter (·.exported)).map (·.name) ++
    (o.constants.filter (·.exported)).map (·.name) ++
    o.exports.map (·.name)

/-- The methods of all classes, in order. -/
def methods (o : Outline) : List FunctionRecord := o.classes.flatMap (·.methods)

/-- The complexity of all functions and methods together. -/
def totalComplexity (o : Outline) : Nat :=
  sumOf (·.complexity) o.functions + sumOf (·.complexity) o.methods

/-- The outline with its complexity counted anew. -/
def recount (o : Outline) : Outline := { o with complexity := o.totalComplexity }

end Outline

end CodeAtlas
