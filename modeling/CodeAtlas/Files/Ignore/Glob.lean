/-
The globs of ignore files.

They have escapes and groups of alternatives, which the globs of a scan do not have, and
they work on bytes: a question mark stands for one byte. So a text is turned into the
characters with the numbers of its bytes, and a glob is read into pieces first and turned
into a `Pattern` over these characters then. The pieces are kept, because what a glob
costs (`Ignore.Automaton`) is read off them too.
-/
import CodeAtlas.Files.Utf8
import CodeAtlas.Pattern.Search

set_option autoImplicit false

namespace CodeAtlas.Ignore

open Pattern (one many lit opt)

/-! ## Bytes -/

/-- The bytes of a text, each as the character with its number. -/
def byteChars (t : List Char) : List Char :=
  (String.ofList t).toUTF8.toList.map fun b => Char.ofNat b.toNat

def anyByte (_ : Char) : Bool := true

/-- Any byte but a slash. -/
def inName (c : Char) : Bool := c ≠ '/'

/-! ## Sets of bytes -/

/-- Numbers from one to another. -/
abbrev Interval := Nat × Nat

/-- The bytes between two characters. They are those of the bytes with which the two are
written: all bytes but the last of the first one, all but the first of the second one,
and what lies between these two. -/
def bytesBetween (a b : Char) : List Interval :=
  let low := (byteChars [a]).map Char.toNat
  let high := (byteChars [b]).map Char.toNat
  let single := fun n => (n, n)
  if a = b then low.map single
  else low.dropLast.map single ++ (low.getLastD 0, high.headD 0) :: high.tail.map single

/-- Intervals that stand in order, those that touch each other put together. -/
def mergedFrom : Interval → List Interval → List Interval
  | r, [] => [r]
  | (a, b), (c, d) :: rs =>
    if c ≤ b + 1 then mergedFrom (a, max b d) rs else (a, b) :: mergedFrom (c, d) rs

/-- The intervals in order, none of which touches another. -/
def merged (rs : List Interval) : List Interval :=
  match rs.mergeSort (fun r s => decide (r.1 ≤ s.1)) with
  | [] => []
  | r :: rs => mergedFrom r rs

/-- The bytes from `n` on that are in none of the intervals, which stand in order. -/
def outsideFrom (n : Nat) : List Interval → List Interval
  | [] => if n ≤ 255 then [(n, 255)] else []
  | (a, b) :: rs => if n < a then (n, a - 1) :: outsideFrom (b + 1) rs else outsideFrom (b + 1) rs

def isWithin (rs : List Interval) (c : Char) : Bool :=
  rs.any fun (a, b) => a ≤ c.toNat && c.toNat ≤ b

/-! ## The pieces of a glob -/

inductive Piece where
  /-- a character that stands for itself -/
  | literal (c : Char)
  /-- one byte of a name -/
  | any
  /-- one star: any part of one name -/
  | star
  /-- two stars in front: any number of directories -/
  | leading
  /-- two stars at the end: everything below -/
  | trailing
  /-- two stars between slashes: one slash, or directories between two -/
  | inner
  /-- a class: one byte that is or is not a member -/
  | member (negated : Bool) (ranges : List (Char × Char))
  /-- a group: one of the branches, none of which is hollow -/
  | group (branches : List (List Piece))

abbrev Glob := List Piece

/-- Does the piece say nothing? Such is a group that has no branches. -/
def Piece.isHollow : Piece → Bool
  | .group [] => true
  | _ => false

def memberBytes (negated : Bool) (ranges : List (Char × Char)) : List Interval :=
  let rs := merged (ranges.flatMap fun (a, b) => bytesBetween a b)
  if negated then outsideFrom 0 rs else rs

mutual

def Piece.pattern : Piece → Pattern
  | .literal c => .exactly (byteChars [c])
  | .any => one inName
  | .star => many inName
  | .leading => opt (lit "/") <|> (many anyByte ++ lit "/")
  | .trailing => lit "/" ++ many anyByte
  | .inner => lit "/" <|> (lit "/" ++ many anyByte ++ lit "/")
  | .member negated ranges =>
    let rs := memberBytes negated ranges
    one (isWithin rs)
  | .group branches => anyOf branches

def allOf : List Piece → Pattern
  | [] => lit ""
  | p :: ps => p.pattern ++ allOf ps

/-- One of the branches; nothing, if there are none. -/
def anyOf : List (List Piece) → Pattern
  | [] => lit ""
  | [b] => allOf b
  | b :: c :: bs => allOf b <|> anyOf (c :: bs)

end

/-- The pattern of a glob; two stars alone stand for everything. -/
def Glob.pattern : Glob → Pattern
  | [.leading] => many anyByte
  | g => allOf g

/-! ## Classes -/

/-- How a class ends. -/
inductive ClassEnd where
  /-- the members, and what follows the class -/
  | closed (ranges : List (Char × Char)) (rest : List Char)
  | unclosed
  /-- a range whose end comes before its begin -/
  | reversed

/-- Reads the members of a class; those so far stand backwards. A closing bracket in
front is a member, and so is a hyphen in front or at the end. `open_` says that a hyphen
waits for the end of its range. -/
def classFrom (open_ : Bool) (seen : List (Char × Char)) : List Char → ClassEnd
  | [] => .unclosed
  | c :: t =>
    match seen with
    | [] => classFrom false [(c, c)] t
    | (a, b) :: before =>
      if c = ']' then .closed (if open_ then ('-', '-') :: seen else seen) t
      else if open_ then
        if c < a then .reversed else classFrom false ((a, c) :: before) t
      else if c = '-' then classFrom true ((a, b) :: before) t
      else classFrom false ((c, c) :: seen) t

/-! ## Reading a glob -/

/-- What has been read of a glob: the pieces of the current branch, and for each open
group what stood in front of it and its finished branches. All stand backwards, the
innermost group first. -/
structure Reading where
  pieces : List Piece := []
  groups : List (List Piece × List (List Piece)) := []

namespace Reading

def push (r : Reading) (p : Piece) : Reading := { r with pieces := p :: r.pieces }

/-- Two stars behind a slash take the place of that slash, or of the stars in front. -/
def pushStars (r : Reading) (p : Piece) : Reading :=
  match r.pieces with
  | .leading :: _ | .trailing :: _ => r
  | _ :: ps => { r with pieces := p :: ps }
  | [] => r.push p

def enter (r : Reading) : Reading := ⟨[], (r.pieces, []) :: r.groups⟩

/-- Ends a branch of a group; a branch that says nothing is left out. -/
def endBranch (ps : List Piece) (branches : List (List Piece)) : List (List Piece) :=
  if ps.all Piece.isHollow then branches else ps.reverse :: branches

/-- Goes on to the next branch of the innermost group, if one is open. -/
def next (r : Reading) : Reading :=
  match r.groups with
  | (front, branches) :: groups => ⟨[], (front, endBranch r.pieces branches) :: groups⟩
  | [] => r.push (.literal ',')

/-- Closes the innermost group; its last branch comes first. -/
def leave? (r : Reading) : Option Reading :=
  match r.groups with
  | (front, branches) :: groups =>
    some ⟨.group (endBranch r.pieces branches) :: front, groups⟩
  | [] => none

/-- Does a character end a branch here? -/
def endsBranch (r : Reading) (c : Char) : Bool := !r.groups.isEmpty && (c = ',' || c = '}')

/-- May two stars behind `prev` stand for directories? -/
def starsMayStart (r : Reading) (prev : Option Char) : Bool :=
  prev = some '/' || (!r.groups.isEmpty && (prev = some ',' || prev = some '{'))

/-- Two stars in front of `t`, behind the character `prev`; do they take the slash in
front of which they stand? -/
def stars (r : Reading) (prev : Option Char) (t : List Char) : Reading × Bool :=
  let plain := (r.push .star).push .star
  if r.pieces.isEmpty then
    match t with
    | [] => (r.push .leading, false)
    | '/' :: _ => (r.push .leading, true)
    | _ => (plain, false)
  else if !r.starsMayStart prev then (plain, false)
  else
    match t with
    | [] => (r.pushStars .trailing, false)
    | '/' :: _ => (r.pushStars .inner, true)
    | c :: _ => if r.endsBranch c then (r.pushStars .trailing, false) else (plain, false)

/-- The glob, if no group is open. -/
def finish? (r : Reading) : Option Glob :=
  if r.groups.isEmpty then some r.pieces.reverse else none

end Reading

/-- Reads a glob behind the character `prev`; `brackets` says that no bracket so far was
left open. The text gets shorter by at least one character a step. -/
def readFrom (fuel : Nat) (prev : Option Char) (brackets : Bool) (r : Reading) (t : List Char) :
    Option Reading :=
  match fuel, t with
  | _, [] => some r
  | 0, _ => none
  | _, ['\\'] => none
  | fuel + 1, '\\' :: c :: t => readFrom fuel (some c) brackets (r.push (.literal c)) t
  | fuel + 1, '?' :: t => readFrom fuel (some '?') brackets (r.push .any) t
  | fuel + 1, '*' :: '*' :: t =>
    let (r, slash) := r.stars prev t
    if slash then readFrom fuel (some '/') brackets r t.tail
    else readFrom fuel (some '*') brackets r t
  | fuel + 1, '*' :: t => readFrom fuel (some '*') brackets (r.push .star) t
  | fuel + 1, '{' :: t => readFrom fuel (some '{') brackets r.enter t
  | fuel + 1, '}' :: t => r.leave?.bind fun r => readFrom fuel (some '}') brackets r t
  | fuel + 1, ',' :: t => readFrom fuel (some ',') brackets r.next t
  | fuel + 1, '[' :: t =>
    let (negated, members) := match t with
      | '!' :: u | '^' :: u => (true, u)
      | u => (false, u)
    let end_ := if brackets then classFrom false [] members else .unclosed
    match end_ with
    | .closed ranges rest =>
      readFrom fuel (some ']') brackets (r.push (.member negated ranges)) rest
    -- a bracket that is never closed stands for itself, and so do all behind it
    | .unclosed => readFrom fuel (some '[') false (r.push (.literal '[')) t
    | .reversed => none
  | fuel + 1, c :: t => readFrom fuel (some c) brackets (r.push (.literal c)) t

/-- The glob that a text says. -/
def Glob.ofText? (t : List Char) : Option Glob :=
  (readFrom t.length none true {} t).bind Reading.finish?

end CodeAtlas.Ignore
