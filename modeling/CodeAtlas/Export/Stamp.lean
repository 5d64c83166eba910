/-
Names that hold a time, and names that are safe for files.
-/
import CodeAtlas.Text.Basic

set_option autoImplicit false

namespace CodeAtlas

/-- A minute of a day in the calendar. -/
structure Clock where
  year : Int
  month : Nat
  day : Nat
  hour : Nat
  minute : Nat
  deriving DecidableEq, Repr

namespace Clock

/-- A number with at least `width` digits. -/
def padded (width n : Nat) : String :=
  let digits := toString n
  String.ofList (List.replicate (width - digits.length) '0') ++ digits

/-- A year with four digits; one outside of 0 to 9999 with a sign in front. -/
def yearText (y : Int) : String :=
  if 0 ≤ y && y ≤ 9999 then padded 4 y.toNat
  else (if y < 0 then "-" else "+") ++ padded 4 y.natAbs

def date (c : Clock) : String :=
  yearText c.year ++ "-" ++ padded 2 c.month ++ "-" ++ padded 2 c.day

def time (c : Clock) : String := padded 2 c.hour ++ padded 2 c.minute

/-- The distance of the local time from universal time, by its minutes. -/
def offsetText (minutes : Int) : String :=
  if minutes = 0 then "Z"
  else
    (if minutes < 0 then "-" else "+") ++ padded 2 (minutes.natAbs / 60) ++ ":" ++
      padded 2 (minutes.natAbs % 60)

/-- Date and time to the second, and the distance from universal time. -/
def stamp (c : Clock) (second : Nat) (offsetMinutes : Int) : String :=
  c.date ++ "T" ++ padded 2 c.hour ++ ":" ++ padded 2 c.minute ++ ":" ++ padded 2 second ++
    offsetText offsetMinutes

end Clock

/-- A character that is safe in a file name, or its replacement. -/
def slugChar (c : Char) : Char :=
  if c.isAlphanum || c = '-' || c = '_' || c = '.' then c else if c = ' ' then '_' else '-'

/-- A name that is safe for files: other characters are replaced, and hyphens and
underscores at both ends are dropped. -/
def slug (t : List Char) : List Char :=
  let border := fun c => c = '-' || c = '_'
  Text.dropEndWhile border ((t.map slugChar).dropWhile border)

end CodeAtlas
