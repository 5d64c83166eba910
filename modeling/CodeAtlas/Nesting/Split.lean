/-
Cutting at the outer level.

A list of parameters or of types is cut at its separators, but not at those inside
brackets or literals. All four kinds of brackets count as one depth, and the angle
of an arrow `=>` is no bracket. A stray closing bracket makes the depth negative,
and a separator counts as outer there too.

The two cutters treat a backslash in a literal differently. `splitOuter` lets a
literal end at a quote whose neighbour on the left is not a backslash; `cutOuter?`
reads a backslash together with the character behind it.
-/
import CodeAtlas.Text.Basic
import CodeAtlas.Nesting.Quoting

set_option autoImplicit false

namespace CodeAtlas

/-- The change of depth at one character of code behind the character `prev`. -/
def bracketValue (prev c : Char) : Int :=
  if c = '(' || c = '[' || c = '{' || c = '<' then 1
  else if c = ')' || c = ']' || c = '}' then -1
  else if c = '>' && prev ≠ '=' then -1
  else 0

/-! ## All pieces -/

/-- Where `splitOuter` stands: the depth, the open quote, the previous character and
the piece that is being read, backwards. -/
structure SplitState where
  depth : Int
  quote : Option Char
  prev : Char
  piece : List Char

namespace SplitState

/-- In front of the first character. -/
def start : SplitState := ⟨0, none, '\x00', []⟩

/-- Does the character end the piece? -/
def ends (sep : Char) (s : SplitState) (c : Char) : Bool :=
  s.quote.isNone && !Quoting.isQuote c && bracketValue s.prev c = 0 && c = sep && s.depth ≤ 0

def cut (s : SplitState) (c : Char) : SplitState := { s with prev := c, piece := [] }

def push (s : SplitState) (c : Char) : SplitState :=
  match s.quote with
  | some q =>
    { s with quote := if c = q && s.prev ≠ '\\' then none else some q, prev := c,
             piece := c :: s.piece }
  | none =>
    if Quoting.isQuote c then { s with quote := some c, prev := c, piece := c :: s.piece }
    else { s with depth := s.depth + bracketValue s.prev c, prev := c, piece := c :: s.piece }

end SplitState

/-- The pieces between outer separators, as they stand. -/
def outerPieces (sep : Char) : SplitState → List Char → List (List Char)
  | s, [] => [s.piece.reverse]
  | s, c :: t =>
    if s.ends sep c then s.piece.reverse :: outerPieces sep (s.cut c) t
    else outerPieces sep (s.push c) t

/-- The pieces between outer separators, trimmed; blank pieces are left out. -/
def splitOuter (sep : Char) (t : List Char) : List (List Char) :=
  ((outerPieces sep .start t).map Text.trim).filter (fun piece => !piece.isEmpty)

/-! ## The first cut -/

/-- Is an equals sign part of `==`, `=>`, `!=`, `<=` or `>=`? -/
def isCompound (prev : Option Char) (rest : List Char) : Bool :=
  (rest.head?.any fun n => n = '>' || n = '=') ||
    prev.any fun p => p = '=' || p = '!' || p = '<' || p = '>'

/-- May the separator `sep` stand between `prev` and `rest`? An equals sign separates
only where it stands for itself. -/
def standsAlone (sep : Char) (prev : Option Char) (rest : List Char) : Bool :=
  !(sep = '=' && isCompound prev rest)

/-- Reads up to the first outer character that `separates`, which is told the character
in front of it and what follows; the second text begins with it. -/
def cutOuterFrom? (separates : Option Char → Char → List Char → Bool) :
    Quoting → Int → Option Char → List Char → Option (List Char × List Char)
  | _, _, _, [] => none
  | .code, depth, prev, c :: t =>
    if Quoting.isQuote c then
      (cutOuterFrom? separates (.literal c) depth (some c) t).map fun (l, r) => (c :: l, r)
    else
      let depth := depth + bracketValue (prev.getD '\x00') c
      if depth ≤ 0 && separates prev c t then some ([], c :: t)
      else (cutOuterFrom? separates .code depth (some c) t).map fun (l, r) => (c :: l, r)
  | st, depth, _, c :: t =>
    (cutOuterFrom? separates (st.next c) depth (some c) t).map fun (l, r) => (c :: l, r)

/-- The texts before and after the first outer `sep`. -/
def cutOuter? (sep : Char) (t : List Char) : Option (List Char × List Char) :=
  (cutOuterFrom? (fun prev c rest => c = sep && standsAlone sep prev rest) .code 0 none t).map
    fun (l, r) => (l, r.drop 1)

/-- The offset in bytes of the first outer byte with the low eight bits of `sep`, which
is `sep` itself if that is in ASCII. It may lie inside the UTF-8 form of a character. -/
def outerOffset? (sep : Char) (t : List Char) : Option Nat :=
  let bytes := String.utf8EncodeChar
  let byte := sep.toNat.toUInt8
  let separates := fun prev c rest => (bytes c).contains byte && standsAlone sep prev rest
  (cutOuterFrom? separates .code 0 none t).map fun (l, r) =>
    Text.byteLength l + (r.head?.map fun c => (bytes c).idxOf byte).getD 0

end CodeAtlas
