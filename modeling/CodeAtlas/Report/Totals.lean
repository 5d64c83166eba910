/-
Totals and groups.

What the report counts over all outlines, and how it groups them: by a key, in the
order in which the keys first occur, and inside a group in the order of the input.
-/
import CodeAtlas.Outline.Record

set_option autoImplicit false

namespace CodeAtlas

/-- How many things there are, and how many of them are exported. -/
structure Tally where
  all : Nat
  exported : Nat
  deriving DecidableEq, Repr

/-- The counts over a list of outlines. -/
structure Totals where
  files : Nat
  bytes : Nat
  functions : Tally
  classes : Tally
  interfaces : Tally
  types : Tally
  constants : Tally
  complexity : Nat
  deriving DecidableEq, Repr

/-- Counts the things that `items` finds in the outlines. -/
def Tally.of {α : Type} (os : List Outline) (items : Outline → List α) (exported : α → Bool) :
    Tally :=
  { all := sumOf (fun o => (items o).length) os,
    exported := sumOf (fun o => ((items o).filter exported).length) os }

def Totals.of (os : List Outline) : Totals :=
  { files := os.length,
    bytes := sumOf (·.size) os,
    functions := Tally.of os (·.functions) (·.exported),
    classes := Tally.of os (·.classes) (·.exported),
    interfaces := Tally.of os (·.interfaces) (·.exported),
    types := Tally.of os (·.types) (·.exported),
    constants := Tally.of os (·.constants) (·.exported),
    complexity := sumOf (·.complexity) os }

/-- The items grouped by a key. -/
def groupBy {α κ : Type} [BEq κ] (key : α → κ) (xs : List α) : List (κ × List α) :=
  (Text.unrepeated (xs.map key)).map fun k => (k, xs.filter fun x => key x == k)

/-- The outlines grouped by directory. -/
def byDirectory (os : List Outline) : List (String × List Outline) := groupBy (·.directory) os

/-- How many outlines there are for each purpose. -/
def purposeCounts (os : List Outline) : List (Purpose × Nat) :=
  (groupBy (·.purpose) os).map fun (p, group) => (p, group.length)

end CodeAtlas
