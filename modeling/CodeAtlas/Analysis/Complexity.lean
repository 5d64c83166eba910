/-
Complexity: one, and one more for each decision on a line that is not a comment.
-/
import CodeAtlas.Outline.Tag
import CodeAtlas.Pattern.Search

set_option autoImplicit false

namespace CodeAtlas.Analysis

open Pattern

def isComment (family : Family) (t : List Char) : Bool :=
  match family with
  | .brace => Text.starts "//" t || Text.starts "/*" t || Text.starts "*" t
  | .indent => Text.starts "#" t

/-- Does the line say something to the program: is it neither blank nor a comment? -/
def isSignificant (family : Family) (l : Line) : Bool :=
  !Text.isBlank l && !isComment family (Text.trim l)

/-- A keyword that branches or repeats. -/
def branchWord : Pattern :=
  edge ++ oneOf ["if", "elif", "for", "while", "switch", "catch", "except"] ++ edge

def logicalOperator : Pattern :=
  lit "&&" <|> lit "||" <|> edge ++ lit "and" ++ edge <|> edge ++ lit "or" ++ edge

/-- A question mark that chooses: neither doubled nor in front of a dot or a colon, and
with a colon to come. -/
def choiceMark : Pattern :=
  (first <|> one (noneOf "?")) ++ lit "?" ++ one (noneOf "?.:") ++ many (noneOf ":") ++ lit ":"

/-- The decisions on a trimmed line. -/
def decisions (t : List Char) : Nat :=
  branchWord.count t + logicalOperator.count t + choiceMark.count t

def complexity (family : Family) (ls : List Line) : Nat :=
  1 + sumOf (fun l => decisions (Text.trim l)) (ls.filter (isSignificant family))

end CodeAtlas.Analysis
