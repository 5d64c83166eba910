/-
Text as a list of characters.

Every recogniser works on lists of characters, so that a scan is a recursion on
its input and a law about it an induction. Lengths and indentation are counted
in bytes of the UTF-8 form, which is what `byteLength` adds up.
-/
import CodeAtlas.Sum
import CodeAtlas.Text.Blank

set_option autoImplicit false

namespace CodeAtlas

/-- One line of a file, without its line break. -/
abbrev Line := List Char

namespace Text

/-- The number of bytes of the UTF-8 form. -/
def byteLength (t : List Char) : Nat := sumOf Char.utf8Size t

/-- What is left behind the first `n` bytes, if a character begins there. -/
def dropBytes? : Nat → List Char → Option (List Char)
  | 0, t => some t
  | _ + 1, [] => none
  | n + 1, c :: t => if c.utf8Size ≤ n + 1 then dropBytes? (n + 1 - c.utf8Size) t else none

/-! ## Beginnings and ends -/

@[inline] def starts (lead : String) (t : List Char) : Bool := lead.toList.isPrefixOf t

@[inline] def ends (close : String) (t : List Char) : Bool := close.toList.isSuffixOf t

/-- What follows `lead`, where the text begins with it. -/
def after? : List Char → List Char → Option (List Char)
  | [], t => some t
  | _ :: _, [] => none
  | p :: lead, c :: t => if p = c then after? lead t else none

theorem after?_eq_some_iff {lead t r : List Char} : after? lead t = some r ↔ t = lead ++ r := by
  induction lead generalizing t with
  | nil => simp [after?, eq_comm]
  | cons p lead ih =>
    cases t with
    | nil => simp [after?]
    | cons c t =>
      by_cases h : p = c
      · simp [after?, h, ih]
      · simp [after?, h, Ne.symm h]

/-- The text without `lead` in front, or the text itself. -/
@[inline] def dropLead (lead : String) (t : List Char) : List Char := (after? lead.toList t).getD t

/-- The text without `close` at its end, or the text itself. -/
@[inline] def dropClose (close : String) (t : List Char) : List Char :=
  ((after? close.toList.reverse t.reverse).map List.reverse).getD t

/-! ## Searching -/

def occurs (needle : List Char) : List Char → Bool
  | [] => needle.isEmpty
  | c :: t => needle.isPrefixOf (c :: t) || occurs needle t

@[inline] def has (needle : String) (t : List Char) : Bool := occurs needle.toList t

def hasAny (needles : List String) (t : List Char) : Bool := needles.any (has · t)

/-- The text before and after the first occurrence of `needle`. -/
def cut? (needle : List Char) : List Char → Option (List Char × List Char)
  | [] => if needle.isEmpty then some ([], []) else none
  | c :: t =>
    match after? needle (c :: t) with
    | some rest => some ([], rest)
    | none => (cut? needle t).map fun (before, rest) => (c :: before, rest)

/-- The text before and after the last `c`. -/
def cutLast? (c : Char) (t : List Char) : Option (List Char × List Char) :=
  let tail := t.reverse.takeWhile (· ≠ c)
  match t.reverse.drop tail.length with
  | [] => none
  | _ :: before => some (before.reverse, tail.reverse)

/-- What follows the last occurrence of `needle`; the whole text if there is none. -/
def afterLast (needle : String) (t : List Char) : List Char :=
  match cut? needle.toList.reverse t.reverse with
  | some (tail, _) => tail.reverse
  | none => t

/-! ## Lines -/

/-- A line break is a line feed with or without a carriage return in front. -/
def dropCarriage (l : Line) : Line := dropClose "\r" l

/-- The lines of a text: a line ends at each line feed, and a carriage return belongs to
the break only where a line feed follows it. -/
def lines (t : List Char) : List Line :=
  let pieces := t.splitOn '\n'
  let closed := pieces.dropLast.map dropCarriage
  -- what follows the last line feed is a line only if it is not empty
  match pieces.getLast? with
  | some (c :: l) => closed ++ [c :: l]
  | _ => closed

/-- The width of the blanks in front, in bytes. -/
def indentation (l : Line) : Nat := byteLength (l.takeWhile isBlankChar)

/-! ## Lists without repetition -/

/-- Adds an item at the end unless it is there already. -/
def insertLast {α : Type} [BEq α] (xs : List α) (x : α) : List α :=
  if xs.contains x then xs else xs ++ [x]

/-- Adds the items of `ys` one after another, each unless it is there already. -/
def insertAll {α : Type} [BEq α] (xs ys : List α) : List α := ys.foldl insertLast xs

/-- Each item once, at the place of its first occurrence. -/
def unrepeated {α : Type} [BEq α] (xs : List α) : List α := insertAll [] xs

end Text

end CodeAtlas
