/-
What a body is about: its verbs, its errors and its data.

All lists here name words or texts, each once, in the order in which they first
occur, and within one line in the order of the word list.
-/
import CodeAtlas.Analysis.Complexity
import CodeAtlas.Outline.Record
import CodeAtlas.Vocabulary

set_option autoImplicit false

namespace CodeAtlas.Analysis

open Pattern

/-- The words that occur in a text. -/
def wordsIn (vocabulary : List String) (t : List Char) : List String :=
  vocabulary.filter (Text.has · t)

/-- The marks of the signs that occur in a text. -/
def marksIn (signs : List (String × String)) (t : List Char) : List String :=
  (signs.filter fun s => Text.has s.1 t).map (·.2)

/-- What `find` finds on the lines, each once. -/
def gather (find : Line → List String) (ls : List Line) : List String :=
  Text.unrepeated (ls.flatMap find)

/-! ## Verbs -/

/-- The words of a list that occur in a body. -/
def mentioned (vocabulary : List String) (ls : List Line) : List String :=
  gather (fun l => wordsIn vocabulary (Text.lower l)) ls

def verbs (ls : List Line) : List String := mentioned Vocabulary.businessVerbs ls

/-- The business verbs in a body as one text. -/
def businessLogic (ls : List Line) : String :=
  let found := verbs ls
  if found.isEmpty then Vocabulary.generalLogic else ", ".intercalate found

/-! ## Errors -/

/-- A keyword of error handling. -/
def tryWord : Pattern := edge ++ oneOf ["try", "catch", "except"] ++ edge

/-- What a `catch` binds. -/
def catchBinding : Pattern :=
  lit "catch" ++ blanks ++ lit "(" ++ blanks ++ keep .value (few1 (noneOf ")")) ++ blanks ++ lit ")"

/-- What an `except` names: one type, or several in round brackets. -/
def exceptClause : Pattern :=
  lit "except" ++ gap ++
    keep .value (lit "(" ++ many (noneOf ")") ++ lit ")" <|>
      some1 fun c => Text.isWordChar c || c = '.') ++
    opt (gap ++ lit "as" ++ gap ++ some1 Text.isWordChar) ++ blanks ++ lit ":"

def anyQuote : Pattern := one fun c => c = '\'' || c = '"' || c = '\x60'

/-- A character between quotes. -/
def unquoted (c : Char) : Bool := !(c = '\'' || c = '"' || c = '\x60')

/-- A literal that mentions an error. -/
def errorLiteral : Pattern :=
  anyQuote ++
    keep .value (many unquoted ++ (anyCase "error" <|> anyCase "exception") ++ many unquoted) ++
    anyQuote

def exceptTypes (raw : List Char) : List String :=
  let inner := Text.dropEndWhile (· = ')') (raw.dropWhile (· = '('))
  (((inner.splitOn ',').map Text.trim).filter (!·.isEmpty)).map String.ofList

/-- The error types on a trimmed line: those of `catch`, then those of `except`. -/
def errorTypes (t : List Char) : List String :=
  ((catchBinding.parts .value t).map fun v => String.ofList (Text.trim v)) ++
    (exceptClause.parts .value t).flatMap exceptTypes

/-- The literals on a trimmed line that mention an error. -/
def errorMessages (t : List Char) : List String :=
  (errorLiteral.parts .value t).map fun v => String.ofList (Text.trim v)

def errorHandling (family : Family) (ls : List Line) : ErrorHandling :=
  let ts := (ls.filter (isSignificant family)).map Text.trim
  { tryBlocks := (ts.filter fun t => tryWord.occurs (Text.lower t)).length,
    errorTypes := gather errorTypes ts,
    errorMessages := gather errorMessages ts,
    fallbacks := gather (fun t => wordsIn Vocabulary.fallbackWords (Text.lower t)) ts,
    logging := gather (fun t => marksIn Vocabulary.loggingSigns (Text.lower t)) ts }

/-! ## Data -/

def dataFlow (ls : List Line) : DataFlow :=
  { inputs := mentioned Vocabulary.inputWords ls,
    outputs := mentioned Vocabulary.outputWords ls,
    transformations := mentioned Vocabulary.transformWords ls,
    sideEffects := mentioned Vocabulary.sideEffectWords ls,
    structures := mentioned Vocabulary.structureWords ls }

end CodeAtlas.Analysis
