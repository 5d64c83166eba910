/-
Imports and exports of the indentation family.

`from m import a, b` takes names from one module, and its list may stand in round
brackets over several lines. `import a, b as c` binds whole modules, one record
each. The names that leave a module are the literals in its `__all__`.
-/
import CodeAtlas.Header.Construct
import CodeAtlas.Extent
import CodeAtlas.Vocabulary

set_option autoImplicit false

namespace CodeAtlas.Indent

open Pattern

/-- Names from one module. -/
def fromImport : Pattern :=
  word "from" ++ keep .module (some1 fun c => Text.isWordChar c || c = '.') ++ gap ++
    word "import" ++ keep .clause (some1 inLine) ++ last

/-- Whole modules. -/
def plainImport : Pattern := word "import" ++ keep .clause (some1 inLine) ++ last

/-- Relative modules are internal; a module of the platform is known by the first part
of its name. -/
def originOf (module : List Char) : ImportOrigin :=
  if Text.starts "." module then .internal
  else if Vocabulary.pythonModules.contains (textOf (module.takeWhile (· ≠ '.'))) then .builtin
  else .external

/-- What stands in front of the first `#`. -/
def dropComment (t : List Char) : List Char := t.takeWhile (· ≠ '#')

/-- Adds lines to a list until it holds a closing round bracket. -/
def joinList (text : List Char) (further : Nat) : List Line → List Char
  | [] => text
  | l :: ls =>
    if text.contains ')' || maxLookahead ≤ further then text
    else joinList (text ++ ' ' :: Text.trim l) (further + 1) ls

/-- The list behind `import`, joined if it opens a round bracket. -/
def importList (clause : List Char) (ls : List Line) : List Char :=
  let clause := Text.trim clause
  if clause.head? = some '(' then joinList clause 0 ls else clause

/-- The record of names from one module. -/
def fromRecord (module clause : List Char) : ImportRecord :=
  let inner := Text.dropEndWhile (· = ')') ((Text.trim (dropComment clause)).dropWhile (· = '('))
  { module := textOf module,
    names := (((inner.splitOn ',').map Text.trim).filter (!·.isEmpty)).map textOf,
    isNamespace := Text.trim inner = ['*'], line := 1, origin := some (originOf module) }

/-- The record of one whole module, which stands in front of the first blank. -/
def moduleRecord? (item : List Char) : Option ImportRecord :=
  let item := Text.trim item
  if item.isEmpty then none
  else
    let module := (Text.words item).headD item
    some { module := textOf module, names := [textOf item], isNamespace := true, line := 1,
           origin := some (originOf module) }

def importStatement? : Recogniser := fun ls => do
  let t := firstTrimmed ls
  match fromImport.match? t with
  | some m =>
    return .imports [fromRecord (m.part .module) (importList (m.part .clause) (ls.drop 1))]
  | none =>
    let m ← plainImport.match? t
    let records := ((dropComment (m.part .clause)).splitOn ',').filterMap moduleRecord?
    guard (!records.isEmpty)
    return .imports records

/-! ## The names that leave a module -/

/-- The assignment of `__all__`, its lines joined. -/
def allAssignment : Pattern :=
  lit "__all__" ++ blanks ++ opt (lit ":" ++ some1 (noneOf "=")) ++ lit "=" ++ blanks ++
    one (fun c => c = '[' || c = '(') ++ keep .clause (few inLine) ++
    opt (one fun c => c = ']' || c = ')') ++ blanks ++ last

/-- A literal between single or double quotes, without quotes inside. -/
def quotedName : Pattern :=
  one (fun c => c = '\'' || c = '"') ++ keep .name (some1 (noneOf "'\"")) ++
    one (fun c => c = '\'' || c = '"')

/-- The names that leave a module with an assignment of `__all__`. -/
def exportsOf (t : List Char) : List ExportRecord :=
  match allAssignment.match? t with
  | some m =>
    (quotedName.parts .name (m.part .clause)).map fun n =>
      { name := textOf n, kind := .named, line := 1 }
  | none => []

/-- Round and square brackets opened less closed, literals or not. -/
def openBrackets (t : List Char) : Int :=
  sumOf (fun c => if c = '(' || c = '[' then 1 else if c = ')' || c = ']' then -1 else 0) t

/-- Adds lines to a text that leaves a bracket open. -/
def joinBracketsFrom (text : List Char) (further : Nat) : List Line → Signature
  | [] => ⟨text, further⟩
  | l :: ls =>
    if 0 < openBrackets text && further < maxLookahead then
      joinBracketsFrom (text ++ ' ' :: Text.trim l) (further + 1) ls
    else ⟨text, further⟩

/-- The statement that begins on the first line, joined until its brackets close. -/
def joinBrackets (ls : List Line) : Signature := joinBracketsFrom (firstTrimmed ls) 0 (ls.drop 1)

end CodeAtlas.Indent
