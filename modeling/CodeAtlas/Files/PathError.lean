/-
Failures that name the path at which they occur.
-/
import CodeAtlas.Files.Tree

set_option autoImplicit false

namespace CodeAtlas

/-- An operation on files that failed, and where. -/
structure PathError where
  path : String
  cause : FileError
  deriving DecidableEq, Repr

def PathError.message (e : PathError) : String :=
  "I/O error at " ++ e.path ++ ": " ++ e.cause.message

/-- The text of an error, and the texts of what caused it. -/
def PathError.causes (e : PathError) : List String := [e.message, e.cause.message]

/-- What an operation on a path gives, its failure with the path. -/
def FileError.atPath {α : Type} (path : String) (r : Except FileError α) : Except PathError α :=
  r.mapError fun e => ⟨path, e⟩

end CodeAtlas
