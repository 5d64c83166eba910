/-
Interfaces of the brace family.

The members of an interface stand inside its curly brackets, one on a line, at
depth one. A line that reads as a method with a parameter list is a method; any
other is a property if it has a type.
-/
import CodeAtlas.Header.Brace.Class

set_option autoImplicit false

namespace CodeAtlas.Brace

open Pattern

def interfaceHeader : Pattern :=
  flag .exported "export" ++ opt (word "default") ++ opt (word "declare") ++ word "interface" ++
    keep .name name ++ blanks ++
    opt (lit "<" ++ keep .params (few (noneOf "\x7b")) ++ lit ">") ++
    opt (gap ++ word "extends" ++ keep .bases (some1 (noneOf "\x7b")))

/-- A method of an interface, up to its parameter list. -/
def interfaceMethod : Pattern :=
  opt (word "readonly") ++ keep .name name ++ opt (keep .mark (lit "?")) ++ blanks ++ typeParams ++
    blanks ++ lit "("

/-- A property of an interface: a name or an index in square brackets, and its type. -/
def interfaceProperty : Pattern :=
  flag .readonly "readonly" ++
    keep .name (name <|> lit "[" ++ some1 (noneOf "]") ++ lit "]") ++
    opt (keep .mark (lit "?")) ++ blanks ++ lit ":" ++ blanks ++ keep .kind (few1 inLine) ++
    blanks ++ opt (one fun c => c = ';' || c = ',') ++ blanks ++ last

/-- The method on a line, where the line is `line`. -/
def memberMethod? (line : Nat) (t : List Char) : Option FunctionRecord := do
  let m ← interfaceMethod.match? t
  let (inner, rest) ← takeGroup? ('(' :: m.rest)
  let tail ← tail? (Text.dropEndWhile (fun c => c = ';' || c = ',') rest)
  return { name := textOf (m.part .name), kind := .method, params := params inner,
           returnType := tail.returnType, line, complexity := 1, lineCount := 1 }

def memberProperty? (t : List Char) : Option Property := do
  let m ← interfaceProperty.match? t
  return { name := textOf (m.part .name), typeText := some (trimmedText (m.part .kind)),
           readonly := m.has .readonly, optional := m.has .mark }

/-- The interface with the member on one line added. -/
def addMember (record : InterfaceRecord) (line : Nat) (t : List Char) : InterfaceRecord :=
  match memberMethod? line t with
  | some f => { record with methods := record.methods ++ [f] }
  | none =>
    match memberProperty? t with
    | some p => { record with properties := record.properties ++ [p] }
    | none => record

/-- May the line hold a member: is it neither blank nor a comment? -/
def mayHoldMember (t : List Char) : Bool :=
  !t.isEmpty && !Text.starts "//" t && !Text.starts "*" t && !Text.starts "/*" t

/-- Adds the members on the lines, the first of which is `line` and at depth `depth`. -/
def addMembers (record : InterfaceRecord) (depth : Int) (line : Nat) :
    List Line → InterfaceRecord
  | [] => record
  | l :: ls =>
    let t := Text.trim l
    let record := if depth = 1 && mayHoldMember t then addMember record line t else record
    addMembers record (depth + braceDelta l) (line + 1) ls

def interfaceDeclaration? : Recogniser := fun ls => do
  let m ← interfaceHeader.match? (firstTrimmed ls)
  let head : InterfaceRecord :=
    { name := textOf (m.part .name), line := 1, exported := m.has .exported,
      typeParams := typeList (m.part? .params), bases := typeList (m.part? .bases) }
  let body := (window (braceExtent ls) ls).drop 1
  return .interface (addMembers head (braceDelta (ls.headD [])) 2 body)

end CodeAtlas.Brace
