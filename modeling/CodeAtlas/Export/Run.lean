/-
Exports.

The tool is checked first, then the result of an earlier export is looked for; only then
is anything made, and the tool run.
-/
import CodeAtlas.Export.Plan

set_option autoImplicit false

namespace CodeAtlas

/-- What became of an export. -/
inductive Exported where
  | alreadyThere (path : String)
  /-- the result, and its size in thousands of words -/
  | written (path : String) (thousands : Nat)
  deriving DecidableEq, Repr

/-- The number of words of a file in thousands, rounded up; zero if it cannot be read. -/
def thousandsOfWords (t : Tree) (path : String) : Nat :=
  match t.readText path with
  | .ok s => ((Text.words s.toList).length + 999) / 1000
  | .error _ => 0

/-- Runs a plan; `force` says that a result that is there may be replaced. -/
def ExportPlan.run (plan : ExportPlan) (t : Tree) (tool : Tool) (force : Bool) :
    Tree × Except ExportError Exported :=
  match tool.check with
  | .error e => (t, .error e)
  | .ok _ =>
    if t.isThere plan.outputFile && !force then (t, .ok (.alreadyThere plan.outputFile))
    else
      match t.makeDirectories plan.versionDir with
      | (t, some e) => (t, .error (.io ⟨plan.versionDir, e⟩))
      | (t, none) =>
        let (t, r) := tool.runIn t plan.root plan.args
        (t, r.map fun _ => .written plan.outputFile (thousandsOfWords t plan.outputFile))

end CodeAtlas
