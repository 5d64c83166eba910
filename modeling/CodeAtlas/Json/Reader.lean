/-
Reading JSON.

The reader goes through the tokens once. What is open is a stack of arrays and
objects, the innermost first; a value that is complete goes into the innermost one.
Where a value of no fixed type is read, at most one hundred and twenty-seven of them
may be open at a time; where only some fields are of interest, the others are passed
over however deep they are.
-/
import CodeAtlas.Json.Token

set_option autoImplicit false

namespace CodeAtlas.Json

/-- An array or an object whose end is still to come; what it holds stands backwards.
An object may have read a key whose value is to come. -/
inductive Frame where
  | arr (items : List Json)
  | obj (fields : List (String × Json)) (key : Option String)
  deriving Repr

/-- What may come next. -/
inductive Want where
  /-- a value -/
  | value
  /-- a value, or the end of an array that is still empty -/
  | valueOrEnd
  /-- a key -/
  | key
  /-- a key, or the end of an object that is still empty -/
  | keyOrEnd
  /-- a colon -/
  | colon
  /-- a comma, or the end of what is open -/
  | commaOrEnd
  deriving DecidableEq, Repr

/-- Where the reader stands: what is open, what may come next, and the value that was
read if nothing is open any more. There may be a limit to what is open at a time. -/
structure Reader where
  frames : List Frame := []
  want : Want := .value
  result : Option Json := none
  limit : Option Nat := none

namespace Reader

/-- Puts a complete value where it belongs. -/
def complete (r : Reader) (j : Json) : Option Reader :=
  match r.frames with
  | [] => some { r with result := some j, want := .commaOrEnd }
  | .arr items :: rest => some { r with frames := .arr (j :: items) :: rest, want := .commaOrEnd }
  | .obj fields (some k) :: rest =>
    some { r with frames := .obj ((k, j) :: fields) none :: rest, want := .commaOrEnd }
  | .obj _ none :: _ => none

/-- Opens an array or an object. -/
def enter (r : Reader) (f : Frame) (want : Want) : Option Reader :=
  if r.limit.any (· ≤ r.frames.length) then none
  else some { r with frames := f :: r.frames, want }

/-- Closes the innermost array or object. -/
def leave (r : Reader) : Option Reader :=
  match r.frames with
  | .arr items :: rest => complete { r with frames := rest } (.arr items.reverse)
  | .obj fields none :: rest => complete { r with frames := rest } (.obj fields.reverse)
  | _ => none

/-- The value that a token is, if it is one. -/
def literal? : Token → Option Json
  | .str s => some (.str s)
  | .int n => some (.int n)
  | .float bits => some (.float bits)
  | .bool b => some (.bool b)
  | .null => some .null
  | _ => none

def wantsValue (r : Reader) : Bool := r.want = .value || r.want = .valueOrEnd

def read (r : Reader) (token : Token) : Option Reader :=
  match token, r.want, r.frames with
  | .openArr, _, _ => if r.wantsValue then r.enter (.arr []) .valueOrEnd else none
  | .openObj, _, _ => if r.wantsValue then r.enter (.obj [] none) .keyOrEnd else none
  | .closeArr, .valueOrEnd, .arr _ :: _ => r.leave
  | .closeArr, .commaOrEnd, .arr _ :: _ => r.leave
  | .closeObj, .keyOrEnd, .obj _ _ :: _ => r.leave
  | .closeObj, .commaOrEnd, .obj _ _ :: _ => r.leave
  | .comma, .commaOrEnd, .arr _ :: _ => some { r with want := .value }
  | .comma, .commaOrEnd, .obj _ _ :: _ => some { r with want := .key }
  | .colon, .colon, _ => some { r with want := .value }
  | .str k, .key, .obj fields _ :: rest =>
    some { r with frames := .obj fields (some k) :: rest, want := .colon }
  | .str k, .keyOrEnd, .obj fields _ :: rest =>
    some { r with frames := .obj fields (some k) :: rest, want := .colon }
  | token, _, _ => if r.wantsValue then (literal? token).bind r.complete else none

def readAll (r : Reader) : List Token → Option Reader
  | [] => some r
  | token :: rest =>
    match r.read token with
    | some r => readAll r rest
    | none => none

end Reader

/-- The deepest nesting of a value of no fixed type. -/
def maxDepth : Nat := 127

/-- The value that a text writes, with the fields of objects as they stand there; nothing
else may stand in the text. -/
def read? (limit : Option Nat) (t : List Char) : Option Json := do
  let r ← Reader.readAll { limit } (← tokens? t)
  guard r.frames.isEmpty
  r.result

/-- The value that a text writes, of no fixed type: a repeated field has its last value. -/
def parse? (t : List Char) : Option Json := (read? (some maxDepth) t).map settle

end CodeAtlas.Json
