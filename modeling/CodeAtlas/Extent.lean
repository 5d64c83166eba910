/-
How far a construct reaches.

All readers here get the lines from the current one to the end of the file and
answer with a number of lines counted from the current one, so an answer depends
only on what follows. The last line of an extent is line `start + answer`.
-/
import CodeAtlas.Text.Basic
import CodeAtlas.Nesting.Balance

set_option autoImplicit false

namespace CodeAtlas

/-- At most this many further lines are read for a header that spans several. -/
def maxLookahead : Nat := 50

/-- Does the line end in `c`, blanks apart? -/
def endsIn (c : Char) (l : Line) : Bool := (Text.trimEnd l).getLast? = some c

/-! ## Blocks between curly brackets -/

/-- One line of a reader that looks for the end of a block: with `opened`, some line
so far opened a bracket; `balance` is what the lines so far leave open; `read` is
the number of lines so far. -/
def braceExtentFrom (opened : Bool) (balance : Int) (read : Nat) : List Line → Nat
  | [] => if opened then read - 1 else 0
  | l :: ls =>
    let count := braceCount l
    let opened := opened || 0 < count.opens
    let balance := balance + count.delta
    if opened && balance ≤ 0 then read
    -- nothing that could be closed was opened, so the reader gives up
    else if !opened && (endsIn ';' l || maxLookahead ≤ read) then read
    else braceExtentFrom opened balance (read + 1) ls

/-- How far the block reaches that begins on the first line: to the line where the
balance returns to zero, or to the last line. Where no bracket opens, to the first
line that ends in a semicolon or to the limit, or no further than the first line. -/
def braceExtent (ls : List Line) : Nat := braceExtentFrom false 0 0 ls

/-- Curly brackets opened less closed on the lines. -/
def netDelta (ls : List Line) : Int := sumOf braceDelta ls

/-! ## Blocks by indentation -/

/-- The last of the lines that belongs to a block indented deeper than `base`, where
`seen` lines were read before them and `last` is the answer so far. -/
def indentExtentFrom (base seen last : Nat) : List Line → Nat
  | [] => last
  | l :: ls =>
    -- a blank line belongs to the block only if more of the block follows
    if Text.isBlank l then indentExtentFrom base (seen + 1) last ls
    else if Text.indentation l ≤ base then last
    else indentExtentFrom base (seen + 1) seen ls

/-- How far the block reaches that the first line opens: over all lines that are blank
or indented deeper than `base`, without the blank lines at its end. -/
def indentExtent (base : Nat) (ls : List Line) : Nat := indentExtentFrom base 1 0 (ls.drop 1)

/-- The lines from the first to the one `extent` lines further; all of them if there
are fewer. -/
def window (extent : Nat) (ls : List Line) : List Line := ls.take (extent + 1)

/-! ## Signatures -/

/-- A header that may span lines: its text, joined, and the number of lines that
follow the first one. -/
structure Signature where
  text : List Char
  further : Nat
  deriving DecidableEq, Repr

/-- Adds lines to a text that leaves a round bracket open. -/
def joinOpen (text : List Char) (further : Nat) : List Line → Signature
  | [] => ⟨text, further⟩
  | l :: ls =>
    if 0 < parenBalance text && further < maxLookahead then
      let next := Text.trim l
      -- no blank behind an opening bracket or in front of a closing one
      let gap := if text.getLast? = some '(' || next.head? = some ')' then [] else [' ']
      joinOpen (text ++ gap ++ next) (further + 1) ls
    else ⟨text, further⟩

/-- The header that begins on the first line, joined until its round brackets close. -/
def joinSignature (ls : List Line) : Signature :=
  joinOpen (Text.trim (ls.headD [])) 0 (ls.drop 1)

end CodeAtlas
