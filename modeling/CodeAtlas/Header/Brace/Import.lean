/-
Imports of the brace family.

Two statements count: `import … from 'module'`, which may run over several lines,
and an assignment of `require('module')`, which stands on one.
-/
import CodeAtlas.Header.Construct
import CodeAtlas.Extent
import CodeAtlas.Nesting.Split
import CodeAtlas.Vocabulary

set_option autoImplicit false

namespace CodeAtlas.Brace

open Pattern

/-- A text between single or double quotes, without quotes inside. -/
def quotedModule : Pattern :=
  one (fun c => c = '\'' || c = '"') ++ keep .module (some1 (noneOf "'\"")) ++
    one (fun c => c = '\'' || c = '"')

/-- An import with a clause in front of `from`. -/
def importFrom : Pattern :=
  word "import" ++ opt (word "type") ++ keep .clause (few1 inLine) ++ gap ++ word "from" ++
    quotedModule

/-- An import for its effects alone. -/
def importBare : Pattern := word "import" ++ quotedModule

/-- An assignment of `require`. -/
def requireCall : Pattern :=
  oneOf ["const", "let", "var"] ++ gap ++ keep .clause (few1 inLine) ++ blanks ++ lit "=" ++
    blanks ++ lit "require(" ++ blanks ++ quotedModule ++ blanks ++ lit ")"

/-! ## Where a module comes from -/

/-- Relative paths and the aliases of the project root are internal. A module of the
platform is known by its scheme or by the first part of its path. -/
def originOf (module : List Char) : ImportOrigin :=
  if [".", "/", "@/", "~/"].any (Text.starts · module) then .internal
  else if Text.starts "node:" module then .builtin
  else if Vocabulary.nodeModules.contains (textOf (module.takeWhile (· ≠ '/'))) then .builtin
  else .external

/-! ## What is imported -/

/-- The names that a statement binds, whether one of them is the default export, and
whether one stands for the whole module. -/
structure Binding where
  names : List String := []
  isDefault : Bool := false
  isNamespace : Bool := false
  deriving DecidableEq, Repr

/-- The entries of a list between curly brackets. -/
def braceEntries (t : List Char) : List (List Char) :=
  ((Text.dropEndWhile (· = '}') (t.dropWhile (· = '{'))).splitOn ',').map Text.trim

/-- Adds one part of an import clause: a list of names, the whole module, or the
default export. -/
def Binding.addPart (b : Binding) (part : List Char) : Binding :=
  match part with
  | '{' :: _ =>
    let names := (braceEntries part).map fun n => Text.trim (Text.dropLead "type " n)
    { b with names := b.names ++ (names.filter (!·.isEmpty)).map textOf }
  | '*' :: renamed =>
    let renamed := Text.trim (Text.dropLead "as" (Text.trim renamed))
    { b with isNamespace := true, names := b.names ++ (nonempty? renamed).toList }
  | _ => { b with isDefault := true, names := b.names ++ [textOf part] }

/-- What stands between `import` and `from`. -/
def clauseBinding (clause : List Char) : Binding :=
  (splitOuter ',' clause).foldl Binding.addPart {}

/-- What stands in front of `= require`: a list of names, or a name for the module. -/
def requireBinding (t : List Char) : Binding :=
  let t := Text.trim t
  if t.head? = some '{' then
    { names := ((braceEntries t).filter (!·.isEmpty)).map textOf }
  else { names := [textOf t], isNamespace := true }

/-- The record of a statement on the current line. -/
def importRecord (module : List Char) (b : Binding) : ImportRecord :=
  { module := textOf module, names := b.names, isDefault := b.isDefault,
    isNamespace := b.isNamespace, line := 1, origin := some (originOf module) }

/-! ## The recogniser -/

/-- Is the statement complete? -/
def isWholeImport (t : List Char) : Bool := importFrom.fits t || importBare.fits t

/-- Adds lines to a statement until it is complete. -/
def joinImport (text : List Char) (further : Nat) : List Line → List Char
  | [] => text
  | l :: ls =>
    if isWholeImport text || maxLookahead ≤ further then text
    else joinImport (text ++ ' ' :: Text.trim l) (further + 1) ls

def importStatement? : Recogniser := fun ls => do
  let t := firstTrimmed ls
  match requireCall.match? t with
  | some m => return .imports [importRecord (m.part .module) (requireBinding (m.part .clause))]
  | none =>
    guard (Text.starts "import " t || Text.starts "import\x7b" t)
    let text := joinImport t 0 (ls.drop 1)
    match importFrom.match? text with
    | some m => return .imports [importRecord (m.part .module) (clauseBinding (m.part .clause))]
    | none =>
      let m ← importBare.match? text
      return .imports [importRecord (m.part .module) {}]

end CodeAtlas.Brace
