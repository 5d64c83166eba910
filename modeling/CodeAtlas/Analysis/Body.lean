/-
The analysis of a range of lines.
-/
import CodeAtlas.Analysis.Calls
import CodeAtlas.Analysis.Performance
import CodeAtlas.Extent

set_option autoImplicit false

namespace CodeAtlas

open Analysis

/-- Everything that is computed for a body. -/
structure BodyAnalysis where
  complexity : Nat
  dependencies : List String
  businessLogic : String
  errorHandling : ErrorHandling
  dataFlow : DataFlow
  performance : Performance
  deriving DecidableEq, Repr

/-- Analyses a body whose first line declares `declared`, if it declares anything. -/
def analyseBody (family : Family) (declared : Option String) (ls : List Line) : BodyAnalysis :=
  { complexity := complexity family ls,
    dependencies := calls family declared ls,
    businessLogic := businessLogic ls,
    errorHandling := errorHandling family ls,
    dataFlow := dataFlow ls,
    performance := performance family ls }

/-- The lines from number `start` to number `stop`, counted from one. Zero stands for
the first line, and a range has at least one line if it begins inside the text. -/
def rangeOf (ls : List Line) (start stop : Nat) : List Line :=
  window (stop - 1 - (start - 1)) (ls.drop (start - 1))

/-- Analyses the lines of a text from number `start` to number `stop`. -/
def analyseRange (family : Family) (content : List Char) (start stop : Nat) : BodyAnalysis :=
  analyseBody family none (rangeOf (Text.lines content) start stop)

/-- The design pattern that the words of a class suggest. -/
def designPatternOf (ls : List Line) : DesignPattern :=
  let text := Text.lower (['\n'].intercalate ls)
  if Text.has "instance" text && Text.has "static" text then .singleton
  else ((Vocabulary.designPatterns.find? fun (ws, _) => Text.hasAny ws text).map (·.2)).getD
    .standardClass

end CodeAtlas
