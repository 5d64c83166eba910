/-
Function headers of the brace family.

A header is joined from as many lines as its round brackets need. The parameter
list is the first round group behind the name; behind it stand the return type and
what opens the body.
-/
import CodeAtlas.Extent
import CodeAtlas.Header.Brace.Params
import CodeAtlas.Vocabulary

set_option autoImplicit false

namespace CodeAtlas.Brace

open Pattern

/-- Type parameters in front of a parameter list. -/
def typeParams : Pattern := opt (lit "<" ++ many (noneOf "(") ++ lit ">")

/-- A declaration with the keyword `function`, up to its parameter list. -/
def functionHeader : Pattern :=
  flag .exported "export" ++ flag .byDefault "default" ++ opt (word "declare") ++
    flag .asynchronous "async" ++ lit "function" ++ blanks ++ opt (keep .generator (lit "*")) ++
    blanks ++ keep .name name ++ blanks ++ typeParams ++ blanks ++ lit "("

/-- A variable that is bound to a function, up to the parameter list or the arrow. -/
def arrowHeader : Pattern :=
  flag .exported "export" ++ oneOf ["const", "let", "var"] ++ gap ++ keep .name name ++ blanks ++
    opt (lit ":" ++ blanks ++ few1 (noneOf "=")) ++ blanks ++ lit "=" ++ blanks ++
    flag .asynchronous "async" ++ opt (lit "<" ++ many (noneOf ">(") ++ lit ">" ++ blanks) ++
    (keep .function (lit "function" ++ edge ++ blanks ++ opt (lit "*") ++ blanks ++
        many Text.isNameChar ++ blanks ++ lit "(") <|>
      keep .group (lit "(") <|>
      (keep .bare name ++ blanks ++ lit "=>"))

/-- The name of a member: it may begin with the sign of a private one. -/
def memberName : Pattern :=
  one (fun c => Text.isNameStart c || c = '#') ++ many Text.isNameChar

def visibilityWord : Pattern :=
  opt (keep .visibility (oneOf ["public", "private", "protected"]) ++ gap)

/-- A method of a class, up to its parameter list. -/
def methodHeader : Pattern :=
  visibilityWord ++ flag .static "static" ++ opt (word "override") ++ flag .abstracted "abstract" ++
    opt (word "override") ++ flag .asynchronous "async" ++ opt (oneOf ["get", "set"] ++ gap) ++
    opt (lit "*" ++ blanks) ++ keep .name memberName ++ blanks ++ typeParams ++ blanks ++ lit "("

/-- What follows a parameter list: a return type, and what opens the body. -/
def headerTail : Pattern :=
  blanks ++ opt (lit ":" ++ blanks ++ keep .kind (few1 inLine)) ++ blanks ++
    opt (keep .tail (lit "\x7b" ++ many inLine <|> lit "=>" ++ many inLine <|>
      lit ";" ++ many inLine)) ++ last

/-! ## Parts -/

/-- The return type and the opener of the body. -/
structure Tail where
  returnType : Option String
  opener : Option (List Char)
  deriving DecidableEq, Repr

/-- Reads what follows a parameter list. -/
def tail? (t : List Char) : Option Tail :=
  (headerTail.match? t).map fun m =>
    { returnType := (m.part? .kind).bind fun k => nonempty? (Text.trim k),
      opener := m.part? .tail }

/-- The parameter list that begins with the bracket just matched, and its tail. -/
def paramsAndTail? (m : Match) : Option (List Parameter × Tail) := do
  let (inner, rest) ← takeGroup? ('(' :: m.rest)
  let tail ← tail? rest
  return (params inner, tail)

/-- The shape of a body, from what follows its arrow. -/
def bodyAfterArrow (t : List Char) : BodyShape :=
  if (Text.trimStart t).head? = some '{' then .block else .expression

/-! ## The recognisers -/

def functionDeclaration? : Recogniser := fun ls => do
  guard (Text.has "function" (firstTrimmed ls))
  let sig := joinSignature ls
  let m ← functionHeader.match? sig.text
  let (params, tail) ← paramsAndTail? m
  return .function
    { name := textOf (m.part .name),
      kind := if m.has .generator then .generator else if m.has .asynchronous then .async
        else .function,
      params, returnType := tail.returnType, exported := m.has .exported,
      defaultExport := m.has .byDefault, further := sig.further }

/-- The kind, parameters, return type and body of a bound function. -/
def boundFunction? (m : Match) :
    Option (FunctionKind × List Parameter × Option String × BodyShape) :=
  if m.has .function then do
    let (params, tail) ← paramsAndTail? m
    return (if m.has .asynchronous then .async else .function, params, tail.returnType, .block)
  else if m.has .group then do
    let (params, tail) ← paramsAndTail? m
    let afterArrow ← Text.after? ['=', '>'] (← tail.opener)
    return (.arrow, params, tail.returnType, bodyAfterArrow afterArrow)
  else
    some (.arrow, [{ name := textOf (m.part .bare) }], none, bodyAfterArrow m.rest)

/-- Recognises a variable that is bound to a function. -/
def arrowDeclaration? : Recogniser := fun ls => do
  let t := firstTrimmed ls
  guard (["const ", "let ", "var ", "export "].any (Text.starts · t))
  let sig := joinSignature ls
  let m ← arrowHeader.match? sig.text
  let (kind, params, returnType, body) ← boundFunction? m
  return .function
    { name := textOf (m.part .name), kind, params, returnType, exported := m.has .exported,
      further := sig.further, body }

/-- Recognises a method of a class. A member whose name begins with the private sign
is private unless it says otherwise. -/
def methodDeclaration? : Recogniser := fun ls => do
  let sig := joinSignature ls
  let m ← methodHeader.match? sig.text
  let name := textOf (m.part .name)
  guard (!Vocabulary.controlWords.contains name)
  let (params, tail) ← paramsAndTail? m
  let byName : Visibility := if (m.part .name).head? = some '#' then .owner else .everyone
  return .method
    { name, kind := .method, params, returnType := tail.returnType,
      visibility := some (((m.part? .visibility).bind Visibility.ofWord?).getD byName),
      isStatic := m.has .static, isAbstract := m.has .abstracted, further := sig.further }

end CodeAtlas.Brace
