/-
Declarations as they are shown in a report: one line each.
-/
import CodeAtlas.Outline.Record

set_option autoImplicit false

namespace CodeAtlas

def onlyIf (b : Bool) (s : String) : String := if b then s else ""

/-- A type behind a colon, if there is one. -/
def typeSuffix (t : Option String) : String := (t.map (": " ++ ·)).getD ""

/-- A parameter, without its default. -/
def Parameter.shown (p : Parameter) : String :=
  onlyIf p.rest "..." ++ p.name ++ onlyIf p.optional "?" ++ typeSuffix p.typeText

/-- The word in front of a function. -/
def FunctionKind.shown : FunctionKind → String
  | .async => "async "
  | .generator => "function* "
  | _ => ""

def FunctionRecord.signature (f : FunctionRecord) : String :=
  f.kind.shown ++ f.name ++ "(" ++ ", ".intercalate (f.params.map (·.shown)) ++ ")" ++
    typeSuffix f.returnType

def Property.shown (p : Property) : String :=
  onlyIf p.isStatic "static " ++ onlyIf p.readonly "readonly " ++ p.name ++
    onlyIf p.optional "?" ++ typeSuffix p.typeText

/-- A list of names behind a word, if there are any. -/
def listSuffix (word : String) (names : List String) : String :=
  onlyIf (!names.isEmpty) (word ++ ", ".intercalate names)

/-- A class without its members. -/
def ClassRecord.shown (c : ClassRecord) : String :=
  onlyIf c.exported "export " ++ onlyIf c.isAbstract "abstract " ++ "class " ++ c.name ++
    ((c.base.map (" extends " ++ ·)).getD "") ++ listSuffix " implements " c.interfaces ++
    " (архитектурный паттерн: " ++ c.designPattern.title ++ ")"

/-- An interface without its members. -/
def InterfaceRecord.shown (i : InterfaceRecord) : String :=
  onlyIf i.exported "export " ++ "interface " ++ i.name ++
    onlyIf (!i.typeParams.isEmpty) ("<" ++ ", ".intercalate i.typeParams ++ ">") ++
    listSuffix " extends " i.bases

/-- A value is shown up to this many characters. -/
def maxValueLength : Nat := 80

/-- A value on one line, cut where it is too long. -/
def clip (value : String) : String :=
  let t := Text.oneLine value.toList
  if t.length ≤ maxValueLength then String.ofList t
  else String.ofList (t.take maxValueLength) ++ "…"

/-- A value behind an equals sign, if there is one. -/
def valueSuffix (v : Option String) : String := (v.map fun v => " = " ++ clip v).getD ""

/-- A type with its value. -/
def TypeRecord.shown (t : TypeRecord) : String :=
  onlyIf t.exported "export " ++ Tag.name t.kind ++ " " ++ t.name ++ valueSuffix t.value

/-- A constant with its value. -/
def ConstantRecord.shown (c : ConstantRecord) : String :=
  (if c.defaultExport then "export default " else onlyIf c.exported "export ") ++ c.name ++
    valueSuffix c.value

/-- A method as it is shown inside its class. -/
def FunctionRecord.shownInClass (f : FunctionRecord) : String :=
  (match f.visibility with
    | some .owner => "private "
    | some .heirs => "protected "
    | _ => "") ++
  onlyIf f.isStatic "static " ++ f.signature

end CodeAtlas
