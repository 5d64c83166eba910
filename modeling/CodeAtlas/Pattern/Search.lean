/-
Finding patterns.

Trying the ways to match one by one can take very long where several repetitions share
a run of characters, most of all a run of blanks. But what follows a construct is asked
about a spot only, so that its answers for all spots of a text fit into a column, one
for each number of characters left, and a construct turns the column of what follows it
into its own by one sweep over the text from its end. So the time is the length of the
text times the size of the pattern.

A column is made only when it is needed. At the start of a text a pattern is followed
from construct to construct without columns, and most texts are refused before the
first repetition.
-/
import CodeAtlas.Pattern.Basic

set_option autoImplicit false

namespace CodeAtlas.Pattern

/-! ## Columns -/

/-- The spots of a text, from its start to its end. -/
def spots (prev : Option Char) : List Char → Nat → List Spot
  | [], left => [⟨prev, [], left⟩]
  | c :: t, left => ⟨prev, c :: t, left⟩ :: spots (some c) t (left - 1)

/-- The answers for the spots of a text, by the number of characters left. -/
abbrev Column := Array (Option Match)

/-- The answer for a spot. -/
def Column.at_ (col : Column) (left : Nat) : Option Match := col.getD left none

/-- Fills a column from the end of the text; `f` sees the answers behind its spot. The
spots stand backwards. -/
@[inline] def sweep (f : Spot → Column → Option Match) (back : List Spot) : Column :=
  back.foldl (fun col m => col.push (f m col)) #[]

/-- The column of a pattern, from the column of what follows it. -/
def column (back : Thunk (List Spot)) : Pattern → Thunk Column → Column
  | exactly t, k =>
    if t.isEmpty then k.get
    else
      sweep (fun m _ =>
        if t.isPrefixOf m.rest then k.get.at_ (m.left - t.length) else none) back.get
  | among ws, k =>
    sweep (fun m _ =>
      ws.findSome? fun w =>
        if w.isPrefixOf m.rest then k.get.at_ (m.left - w.length) else none) back.get
  | one p, k =>
    sweep (fun m _ =>
      match m.rest with
      | [] => none
      | c :: _ => if p c then k.get.at_ (m.left - 1) else none) back.get
  | many p, k =>
    sweep (fun m behind =>
      match m.rest with
      | [] => k.get.at_ m.left
      | c :: _ =>
        if p c then (behind.at_ (m.left - 1)).or (k.get.at_ m.left) else k.get.at_ m.left) back.get
  | few p, k =>
    sweep (fun m behind =>
      match m.rest with
      | [] => k.get.at_ m.left
      | c :: _ => (k.get.at_ m.left).or (if p c then behind.at_ (m.left - 1) else none)) back.get
  | seq a b, k => column back a (Thunk.mk fun _ => column back b k)
  | either a b, k =>
    let left := column back a k
    let right := column back b k
    sweep (fun m _ => (left.at_ m.left).or (right.at_ m.left)) back.get
  | mark s, k => sweep (fun m _ => (k.get.at_ m.left).map (·.mark s m)) back.get
  | first, k => sweep (fun m _ => if m.prev.isNone then k.get.at_ m.left else none) back.get
  | last, k => sweep (fun m _ => if m.rest.isEmpty then k.get.at_ m.left else none) back.get
  | edge, k => sweep (fun m _ => if m.isEdge then k.get.at_ m.left else none) back.get

/-- The spots of a text, backwards. -/
def backwards (t : List Char) : Thunk (List Spot) :=
  Thunk.mk fun _ => (spots none t t.length).reverse

def doneColumn (back : Thunk (List Spot)) : Thunk Column :=
  Thunk.mk fun _ => sweep (fun m _ => some (.done m)) back.get

/-- The matches of the pattern that begin at the spots of a text. -/
def allMatches (p : Pattern) (t : List Char) : Column :=
  let back := backwards t
  p.column back (doneColumn back)

/-! ## At one spot -/

/-- The last answer behind characters of the class; `best` is the last one so far. -/
def lastOf (p : Char → Bool) (col : Column) (best : Option Match) :
    List Char → Nat → Option Match
  | [], left => (col.at_ left).or best
  | c :: t, left =>
    let best := (col.at_ left).or best
    if p c then lastOf p col best t (left - 1) else best

/-- The first answer behind characters of the class. -/
def firstOf (p : Char → Bool) (col : Column) : List Char → Nat → Option Match
  | [], left => col.at_ left
  | c :: t, left =>
    match col.at_ left with
    | some r => some r
    | none => if p c then firstOf p col t (left - 1) else none

/-- The spot behind all characters of the class. -/
def behindAll (p : Char → Bool) (prev : Option Char) : List Char → Nat → Spot
  | [], left => ⟨prev, [], left⟩
  | c :: t, left => if p c then behindAll p (some c) t (left - 1) else ⟨prev, c :: t, left⟩

/-- Follows the pattern at one spot; `k` answers for what follows it, and `col` holds
the same answers for all spots. -/
def follow (back : Thunk (List Spot)) :
    Pattern → (Spot → Option Match) → Thunk Column → Spot → Option Match
  -- a repetition first tries its preferred end alone
  | many p, k, col, m =>
    match k (behindAll p m.prev m.rest m.left) with
    | some r => some r
    | none => if m.rest.head?.any p then lastOf p col.get none m.rest m.left else none
  | few p, k, col, m =>
    match k m with
    | some r => some r
    | none => if m.rest.head?.any p then firstOf p col.get m.rest m.left else none
  | seq a b, k, col, m =>
    follow back a (follow back b k col) (Thunk.mk fun _ => column back b col) m
  | either a b, k, col, m =>
    match follow back a k col m with
    | some r => some r
    | none => follow back b k col m
  | p, k, _, m => p.run k m

/-- The first way to match at the start of the text. -/
def match? (p : Pattern) (t : List Char) : Option Match :=
  let back := backwards t
  p.follow back (fun m => some (.done m)) (doneColumn back) (.start t)

def fits (p : Pattern) (t : List Char) : Bool := (p.match? t).isSome

/-! ## All occurrences -/

/-- The matches from left to right that do not overlap, each with the spot at which it
begins. `wait` spots still belong to the last one. -/
def apart (col : Column) : Nat → List Spot → List (Spot × Match)
  | _, [] => []
  | wait + 1, _ :: ms => apart col wait ms
  | 0, m :: ms =>
    match col.at_ m.left with
    | some r => (m, r) :: apart col (m.left - r.stop.left - 1) ms
    | none => apart col 0 ms

/-- The occurrences from left to right that do not overlap, each with the spot at which
it begins. -/
def occurrences (p : Pattern) (t : List Char) : List (Spot × Match) :=
  apart (p.allMatches t) 0 (spots none t t.length)

/-- The texts of one part in all occurrences. -/
def parts (p : Pattern) (s : Slot) (t : List Char) : List (List Char) :=
  (p.occurrences t).map fun (_, r) => r.part s

/-- The number of occurrences that do not overlap. -/
def count (p : Pattern) (t : List Char) : Nat := (p.occurrences t).length

def occurs (p : Pattern) (t : List Char) : Bool := !(p.occurrences t).isEmpty

end CodeAtlas.Pattern
