/-
Saving a report.

A report that is there is kept unless it may be replaced. The directories in front of it
are made where they are missing. An error changes no file; directories that were made
before it stay.
-/
import CodeAtlas.Files.PathError

set_option autoImplicit false

namespace CodeAtlas.Report

/-- What became of a report. -/
inductive Saved where
  | alreadyThere
  | written (bytes lines : Nat)
  deriving DecidableEq, Repr

/-- Makes the directory in which a path stands. -/
def makeParent (t : Tree) (path : String) : Tree × Option PathError :=
  match PathName.parent? path with
  | none => (t, none)
  | some above =>
    let (t, e) := t.makeDirectories above
    (t, e.map fun e => ⟨above, e⟩)

/-- Saves a text; `force` says that a file that is there may be replaced. -/
def save (t : Tree) (path text : String) (force : Bool) : Tree × Except PathError Saved :=
  if t.isThere path && !force then (t, .ok .alreadyThere)
  else
    match makeParent t path with
    | (t, some e) => (t, .error e)
    | (t, none) =>
      match t.writeText path text with
      | .ok t => (t, .ok (.written text.utf8ByteSize (Text.lines text.toList).length))
      | .error e => (t, .error ⟨path, e⟩)

end CodeAtlas.Report
