/-
Classes of the brace family and their fields.
-/
import CodeAtlas.Header.Brace.Function

set_option autoImplicit false

namespace CodeAtlas.Brace

open Pattern

/-- Type arguments, up to an angle bracket and in front of any curly one. -/
def typeArguments : Pattern := opt (blanks ++ lit "<" ++ few (noneOf "\x7b") ++ lit ">")

def classHeader : Pattern :=
  flag .exported "export" ++ flag .byDefault "default" ++ opt (word "declare") ++
    flag .abstracted "abstract" ++ word "class" ++ keep .name name ++ typeArguments ++
    opt (gap ++ word "extends" ++
      keep .base (one Text.isNameStart ++ many fun c => Text.isNameChar c || c = '.') ++
      typeArguments) ++
    opt (gap ++ word "implements" ++ keep .bases (some1 (noneOf "\x7b")))

def fieldHeader : Pattern :=
  visibilityWord ++ flag .static "static" ++ opt (word "declare") ++ flag .readonly "readonly" ++
    keep .name memberName ++ opt (keep .mark (one fun c => c = '?' || c = '!')) ++ blanks ++
    opt (lit ":" ++ blanks ++ keep .kind (few1 (noneOf "=;"))) ++ blanks ++
    opt (lit "=" ++ blanks ++ keep .value (few1 inLine)) ++ blanks ++ opt (lit ";") ++ blanks ++
    last

/-- The types of a list, as they are kept in records. -/
def typeList (t : Option (List Char)) : List String :=
  match t with
  | some t => (splitOuter ',' t).map textOf
  | none => []

def classDeclaration? : Recogniser := fun ls => do
  let m ← classHeader.match? (firstTrimmed ls)
  return .classHead
    { name := textOf (m.part .name), base := (m.part? .base).map textOf,
      interfaces := typeList (m.part? .bases), isAbstract := m.has .abstracted,
      exported := m.has .exported, defaultExport := m.has .byDefault }

/-- Recognises a field; it must have a type or a value. -/
def fieldDeclaration? : Recogniser := fun ls => do
  let m ← fieldHeader.match? (firstTrimmed ls)
  guard (m.has .kind || m.has .value)
  let name := textOf (m.part .name)
  guard (!Vocabulary.controlWords.contains name)
  return .property
    { name, typeText := (m.part? .kind).map trimmedText, readonly := m.has .readonly,
      optional := m.part? .mark = some ['?'], isStatic := m.has .static,
      visibility := (m.part? .visibility).bind Visibility.ofWord?,
      defaultValue := (m.part? .value).map trimmedText }

end CodeAtlas.Brace
