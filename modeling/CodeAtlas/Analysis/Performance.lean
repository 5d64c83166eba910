/-
Where a body may be slow.

A loop is nested if it stands on a line indented deeper than an earlier loop that
has not ended, or on one line with another. A loop ends where the indentation
returns to its level. Two lines in a row that wait are a sequence of waits, unless
something is gathered before.
-/
import CodeAtlas.Analysis.Flow

set_option autoImplicit false

namespace CodeAtlas.Analysis

open Pattern

def loopWord : Pattern := edge ++ oneOf ["for", "while"] ++ edge

/-- What has been seen of a body so far. -/
structure PaceState where
  /-- the indentation of the loops that have not ended, the innermost first -/
  openLoops : List Nat := []
  /-- the number of lines in a row that wait -/
  waits : Nat := 0
  /-- was something gathered? -/
  gathered : Bool := false
  found : Performance := {}

namespace PaceState

/-- The state with a bottleneck noted where `b` holds. -/
def note (s : PaceState) (b : Bool) (mark : String) : PaceState :=
  if b then
    { s with found := { s.found with bottlenecks := Text.insertLast s.found.bottlenecks mark } }
  else s

/-- Looks at the loops on a trimmed line of the given indentation. -/
def loops (s : PaceState) (indent : Nat) (t : List Char) : PaceState :=
  let open_ := s.openLoops.filter (· < indent)
  let hits := loopWord.count t
  let s := { s with openLoops := open_ }
  if hits = 0 then s
  else
    let s := s.note (!open_.isEmpty || 1 < hits) "nested_loops"
    { s with openLoops := indent :: open_ }

/-- Looks at the waits on a lowered line. -/
def waiting (s : PaceState) (low : List Char) : PaceState :=
  let gathered := s.gathered || Text.hasAny ["promise.all", "asyncio.gather"] low
  let s := { s with gathered }
  if Text.has "await " low then
    { s with waits := s.waits + 1 }.note (1 < s.waits + 1 && !gathered) "sequential_awaits"
  else { s with waits := 0 }

/-- Looks at one line that is neither blank nor a comment. -/
def line (s : PaceState) (l : Line) : PaceState :=
  let t := Text.trim l
  let low := Text.lower t
  let s := (s.loops (Text.indentation l) t).waiting low
  let marks := marksIn Vocabulary.optimizationSigns low
  { s with found := { s.found with
      optimizations := Text.insertAll s.found.optimizations marks } }

end PaceState

def performance (family : Family) (ls : List Line) : Performance :=
  ((ls.filter (isSignificant family)).foldl PaceState.line {}).found

end CodeAtlas.Analysis
