/-
Labels of a whole file: what it is for, its business domain, its layer and what it
has to do with configuration.
-/
import CodeAtlas.Outline.Record
import CodeAtlas.Pattern.Search
import CodeAtlas.Vocabulary

set_option autoImplicit false

namespace CodeAtlas.Label

open Pattern

/-- What the lowered content of a file says about its purpose; the first rule counts. -/
def purposeByContent (low : List Char) : Purpose :=
  let has := (Text.has · low)
  if has "export default" && has "function" then .mainModule
  else if has "interface" && has "export" then .typesAndInterfaces
  else if has "class" && has "export" then .classes
  else if has "describe(" || has "it(" then .testing
  else if has "process.env" || has "config" then .configuration
  else .general

/-- The purpose of a file: its name decides, and where the name says nothing, its
content. -/
def purpose (path content : List Char) : Purpose :=
  let name := (path.reverse.takeWhile (· ≠ '/')).reverse
  match Vocabulary.purposesByName.find? fun (ws, _) => Text.hasAny ws name with
  | some (_, p) => p
  | none => purposeByContent (Text.lower content)

def domain (content : List Char) : String :=
  let low := Text.lower content
  ((Vocabulary.businessDomains.find? fun (ws, _) => Text.hasAny ws low).map (·.2)).getD
    Vocabulary.generalDomain

/-- The architectural layer of a file, by the whole parts of its path. -/
def layer (path : List Char) : String :=
  let parts := (path.splitOn '/').map String.ofList
  ((Vocabulary.layers.find? fun (ws, _) => ws.any parts.contains).map (·.2)).getD
    Vocabulary.generalLayer

/-! ## Configuration -/

/-- A variable of the environment in the brace family. -/
def processVariable : Pattern :=
  lit "process.env." ++ keep .name (one (fun c => c.isUpper || c = '_') ++
    many fun c => c.isUpper || c.isDigit || c = '_')

/-- A variable of the environment in the indentation family. -/
def osVariable : Pattern :=
  lit "os." ++
    (lit "environ" ++ opt (lit ".get") ++ blanks ++ one (fun c => c = '[' || c = '(') <|>
      lit "getenv" ++ blanks ++ lit "(") ++
    blanks ++ one (fun c => c = '\'' || c = '"') ++
    keep .name (one (fun c => c.isAlpha || c = '_') ++ many fun c => c.isAlphanum || c = '_') ++
    one (fun c => c = '\'' || c = '"')

/-- The variables of the environment that a text mentions, each once. -/
def environment (content : List Char) : List String :=
  Text.unrepeated ((processVariable.parts .name content ++ osVariable.parts .name content).map
    String.ofList)

def configuration (content : List Char) : Configuration :=
  let low := Text.lower content
  { environment := environment content,
    mentionsConfig := Text.hasAny Vocabulary.configWords low,
    mentionsSecrets := Text.hasAny Vocabulary.secretWords low,
    hasValidation := Text.hasAny Vocabulary.validationWords low }

end CodeAtlas.Label
