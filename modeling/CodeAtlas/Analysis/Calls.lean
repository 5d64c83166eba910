/-
Calls: the names in front of a round bracket.
-/
import CodeAtlas.Analysis.Complexity
import CodeAtlas.Vocabulary

set_option autoImplicit false

namespace CodeAtlas.Analysis

open Pattern

/-- A name in front of a round bracket. -/
def call : Pattern := keep .name Pattern.name ++ blanks ++ lit "("

/-- Is the name behind this text declared? An equals sign or a bracket in front means
that it is called. -/
def declares (before : List Char) : Bool := !before.contains '=' && !before.contains '('

/-- Is the first call on the line the declaration of `declared`? -/
def isDeclaration (declared : Option String) (t : List Char) (found : Spot × Match) : Bool :=
  declared = some (String.ofList (found.2.part .name)) &&
    declares (t.take (t.length - found.1.left))

/-- The names called on a trimmed line; on the first line of a body, the one that it
declares is not called there. -/
def lineCalls (declared : Option String) (t : List Char) : List String :=
  let found := match call.occurrences t with
    | [] => []
    | m :: ms => if isDeclaration declared t m then ms else m :: ms
  (found.map fun (_, m) => String.ofList (m.part .name)).filter
    (!Vocabulary.callExcludes.contains ·)

/-- The names called on a line, none if it is a comment. -/
def callsOn (family : Family) (declared : Option String) (l : Line) : List String :=
  if isComment family (Text.trim l) then [] else lineCalls declared (Text.trim l)

/-- The names called in a body whose first line declares `declared`, each once. -/
def calls (family : Family) (declared : Option String) : List Line → List String
  | [] => []
  | l :: ls => Text.unrepeated (callsOn family declared l ++ ls.flatMap (callsOn family none))

end CodeAtlas.Analysis
