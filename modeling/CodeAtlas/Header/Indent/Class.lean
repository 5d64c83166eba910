/-
Classes, attributes and constants of the indentation family.
-/
import CodeAtlas.Header.Indent.Function
import CodeAtlas.Header.Indent.Import

set_option autoImplicit false

namespace CodeAtlas.Indent

open Pattern

def classHeader : Pattern :=
  word "class" ++ keep .name name ++ blanks ++ typeParams ++ blanks ++
    opt (lit "(" ++ keep .bases (many (noneOf ")")) ++ lit ")") ++ blanks ++ lit ":"

/-- A type behind a colon, up to an equals sign. -/
def typeMark : Pattern := opt (lit ":" ++ blanks ++ keep .kind (few1 (noneOf "=")))

/-- A value behind an equals sign that stands for itself. -/
def assigned : Pattern :=
  blanks ++ lit "=" ++ blanks ++ keep .value (one (noneOf "=") ++ many inLine) ++ last

/-- An assignment to an attribute of the object. -/
def selfAssignment : Pattern :=
  lit "self." ++ keep .name name ++ blanks ++ typeMark ++ assigned

/-- An assignment to an attribute of the class. -/
def attributeAssignment : Pattern := keep .name name ++ blanks ++ typeMark ++ assigned

/-- An attribute with a type and no value. -/
def attributeType : Pattern :=
  keep .name name ++ blanks ++ lit ":" ++ blanks ++ keep .kind (few1 (noneOf "=")) ++ blanks ++ last

/-- An assignment to a name in capital letters. -/
def constantAssignment : Pattern :=
  keep .name (one (fun c => c.isUpper || c = '_') ++
      many fun c => c.isUpper || c.isDigit || c = '_') ++
    blanks ++ typeMark ++ assigned

/-! ## The recognisers -/

/-- Recognises the header of a class. Bases with an equals sign are arguments; the
first other one is the base, the rest are taken as interfaces. -/
def classDeclaration? : Recogniser := fun ls => do
  let m ← classHeader.match? (firstTrimmed ls)
  let listed := (m.part? .bases).getD []
  let bases := (splitOuter ',' listed).filter fun b => !b.contains '='
  let isAbstract := bases.any (fun b => textOf b == "ABC" || Text.ends ".ABC" b) ||
    Text.has "ABCMeta" listed
  let name := m.part .name
  return .classHead
    { name := textOf name, base := bases.head?.map textOf, interfaces := (bases.drop 1).map textOf,
      isAbstract, exported := !Text.starts "_" name, defaultExport := false }

/-- Recognises an assignment to an attribute of the object. -/
def selfAssignment? : Recogniser := fun ls => do
  let m ← selfAssignment.match? (firstTrimmed ls)
  let name := m.part .name
  return .property
    { name := textOf name, typeText := some (((m.part? .kind).map trimmedText).getD "any"),
      visibility := some (visibilityOf name), defaultValue := some (trimmedText (m.part .value)) }

/-- Recognises an attribute of a class. -/
def attribute? : Recogniser := fun ls =>
  let t := firstTrimmed ls
  match attributeAssignment.match? t with
  | some m =>
    let name := m.part .name
    some (.property
      { name := textOf name, typeText := (m.part? .kind).map trimmedText, isStatic := true,
        visibility := some (visibilityOf name),
        defaultValue := some (trimmedText (m.part .value)) })
  | none =>
    (attributeType.match? t).map fun m =>
      let name := m.part .name
      .property
        { name := textOf name, typeText := some (trimmedText (m.part .kind)),
          visibility := some (visibilityOf name) }

/-- Recognises a constant. -/
def constant? : Recogniser := fun ls => do
  let m ← constantAssignment.match? (firstTrimmed ls)
  let name := m.part .name
  return .constant
    { name := textOf name, typeText := (m.part? .kind).map trimmedText,
      exported := !Text.starts "_" name, line := 1, value := some (trimmedText (m.part .value)) }

/-- Does the line end a class whose own line is indented by `base`? It must not be
indented deeper, and must begin a definition, a decorator or a constant. -/
def closesClass (base : Nat) (l : Line) : Bool :=
  let t := Text.trim l
  !t.isEmpty && Text.indentation l ≤ base &&
    (Text.starts "def " t || Text.starts "async def " t || Text.starts "class " t ||
      Text.starts "@" t || (constantAssignment.fits t && !Text.has "self." t))

/-! ## Tables -/

/-- Tried in order outside classes. -/
def outside : List (String × Recogniser) := [
  ("import", importStatement?),
  ("decorator", decorator?),
  ("class", classDeclaration?),
  ("def", defDeclaration?),
  ("constant", constant?)]

/-- Tried in order inside a class, outside the bodies of its methods. -/
def inside : List (String × Recogniser) := [
  ("decorator", decorator?),
  ("class", classDeclaration?),
  ("def", defDeclaration?),
  ("attribute", attribute?)]

end CodeAtlas.Indent
