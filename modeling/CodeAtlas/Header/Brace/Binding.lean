/-
Types and constants of the brace family.
-/
import CodeAtlas.Header.Brace.Import
import CodeAtlas.Header.Brace.Interface

set_option autoImplicit false

namespace CodeAtlas.Brace

open Pattern

def aliasHeader : Pattern :=
  flag .exported "export" ++ opt (word "declare") ++ word "type" ++ keep .name name ++ blanks ++
    opt (lit "<" ++ many (noneOf "=") ++ lit ">") ++ blanks ++ lit "=" ++ blanks ++
    keep .value (many inLine) ++ last

def enumHeader : Pattern :=
  flag .exported "export" ++ opt (word "declare") ++ opt (word "const") ++ word "enum" ++
    keep .name name

/-- A namespace; its name may have parts. -/
def namespaceHeader : Pattern :=
  flag .exported "export" ++ opt (word "declare") ++ oneOf ["namespace", "module"] ++ gap ++
    keep .name (one Text.isNameStart ++ many fun c => Text.isNameChar c || c = '.') ++ blanks ++
    lit "\x7b"

def constantHeader : Pattern :=
  flag .exported "export" ++ flag .byDefault "default" ++ word "const" ++ keep .name name ++
    blanks ++ opt (lit ":" ++ blanks ++ keep .kind (few1 (noneOf "="))) ++ blanks ++ lit "=" ++
    blanks ++ keep .value (few1 inLine) ++ blanks ++ opt (lit ";") ++ blanks ++ last

def aliasDeclaration? : Recogniser := fun ls => do
  let m ← aliasHeader.match? (firstTrimmed ls)
  let value := Text.trim (Text.dropEndWhile (· = ';') (Text.trim (m.part .value)))
  return .type { name := textOf (m.part .name), kind := .type, line := 1,
                 exported := m.has .exported, value := nonempty? value }

def enumDeclaration? : Recogniser := fun ls => do
  let m ← enumHeader.match? (firstTrimmed ls)
  return .type { name := textOf (m.part .name), kind := .enum, line := 1,
                 exported := m.has .exported }

def namespaceDeclaration? : Recogniser := fun ls => do
  let m ← namespaceHeader.match? (firstTrimmed ls)
  return .type { name := textOf (m.part .name), kind := .namespace, line := 1,
                 exported := m.has .exported }

def constantDeclaration? : Recogniser := fun ls => do
  let m ← constantHeader.match? (firstTrimmed ls)
  return .constant { name := textOf (m.part .name), typeText := (m.part? .kind).map trimmedText,
                     exported := m.has .exported, defaultExport := m.has .byDefault, line := 1,
                     value := some (trimmedText (m.part .value)) }

/-! ## Tables -/

/-- Tried in order outside classes. -/
def outside : List (String × Recogniser) := [
  ("import", importStatement?),
  ("class", classDeclaration?),
  ("interface", interfaceDeclaration?),
  ("type", aliasDeclaration?),
  ("enum", enumDeclaration?),
  ("namespace", namespaceDeclaration?),
  ("function", functionDeclaration?),
  ("arrow", arrowDeclaration?),
  ("constant", constantDeclaration?)]

/-- Tried in order directly inside a class. -/
def inside : List (String × Recogniser) :=
  [("method", methodDeclaration?), ("property", fieldDeclaration?)]

end CodeAtlas.Brace
