/-
Function headers and decorators of the indentation family.
-/
import CodeAtlas.Header.Construct
import CodeAtlas.Extent
import CodeAtlas.Nesting.Split

set_option autoImplicit false

namespace CodeAtlas.Indent

open Pattern

/-- A name: it begins with a letter of ASCII or an underscore. -/
def name : Pattern := one (fun c => c.isAlpha || c = '_') ++ many Text.isWordChar

/-- Type parameters in square brackets. -/
def typeParams : Pattern := opt (lit "[" ++ many (noneOf "]") ++ lit "]")

/-- A decorator. -/
def decoratorHeader : Pattern := lit "@" ++ keep .value (some1 inLine) ++ last

/-- A function, up to its parameter list. -/
def defHeader : Pattern :=
  flag .asynchronous "async" ++ word "def" ++ keep .name name ++ blanks ++ typeParams ++ blanks ++
    lit "("

/-- What follows a parameter list: the return type, the colon and a comment. -/
def defTail : Pattern :=
  blanks ++ opt (lit "->" ++ blanks ++ keep .kind (few1 inLine)) ++ blanks ++ lit ":" ++ blanks ++
    opt (lit "#" ++ many inLine) ++ last

/-! ## Parts -/

/-- Two leading underscores make a name private unless two follow; one makes it
protected. -/
def visibilityOf (name : List Char) : Visibility :=
  if Text.starts "__" name then if Text.ends "__" name then .everyone else .owner
  else if Text.starts "_" name then .heirs
  else .everyone

/-- Texts that may stand in a parameter list and are no parameters. -/
def paramMarkers : List String := ["/", "*", "self", "cls"]

/-- One parameter; nothing for a marker or where no name is left. The type begins at
the first colon. -/
def param? (raw : List Char) : Option Parameter :=
  let raw := Text.trim raw
  if raw.isEmpty || paramMarkers.contains (textOf raw) then none
  else
    let t := raw.dropWhile (· = '*')
    let (head, default) := match cutOuter? '=' t with
      | some (l, r) => (Text.trim l, some (trimmedText r))
      | none => (t, none)
    let (namePart, type) := match Text.cut? [':'] head with
      | some (l, r) => (l, nonempty? (Text.trim r))
      | none => (head, none)
    let name := Text.trim namePart
    if name.isEmpty then none
    else
      some { name := textOf name, typeText := type, optional := default.isSome,
             defaultValue := default, rest := raw.head? = some '*' }

/-- The parameters of a list, without its round brackets. -/
def params (t : List Char) : List Parameter := (splitOuter ',' t).filterMap param?

/-! ## The recognisers -/

def decorator? : Recogniser := fun ls => do
  let m ← decoratorHeader.match? (firstTrimmed ls)
  return .decorator (trimmedText (m.part .value))

/-- Recognises a function header. Whether it declares a method is decided by where it
stands. -/
def defDeclaration? : Recogniser := fun ls => do
  let t := firstTrimmed ls
  guard (Text.starts "def " t || Text.starts "async " t)
  let sig := joinSignature ls
  let m ← defHeader.match? sig.text
  let (inner, rest) ← takeGroup? ('(' :: m.rest)
  let tail ← defTail.match? rest
  let name := m.part .name
  return .function
    { name := textOf name, kind := if m.has .asynchronous then .async else .function,
      params := params inner, returnType := (tail.part? .kind).map trimmedText,
      exported := !Text.starts "_" name, visibility := some (visibilityOf name),
      further := sig.further }

end CodeAtlas.Indent
