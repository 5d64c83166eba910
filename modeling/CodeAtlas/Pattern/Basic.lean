/-
Patterns.

A pattern says what a text may begin with. Only single characters are repeated, as
often as possible (`many`) or as seldom as possible (`few`), and of two alternatives
the left one is preferred; the answer is the first way to match in that order. The
parts that a caller needs are kept under a `Slot`.

`run p k m` says what a match is: it matches `p` at the spot `m` and then wants `k` to
succeed, and goes on to the next way of matching `p` where `k` fails. So each construct
has one equation, and all of them are structural. What `k` answers depends on the spot
alone and not on the way there, because a part that is kept leaves marks in the answer
and none in the question; this is what lets `Pattern.Search` ask each question once.
-/
import CodeAtlas.Text.Basic
import CodeAtlas.Text.Word

set_option autoImplicit false

namespace CodeAtlas

/-- The parts of a text that a pattern can keep. -/
inductive Slot where
  | exported | byDefault | asynchronous | generator | abstracted | static | readonly
  | visibility | keyword | name | mark | kind | value | params | base | bases
  | clause | module | function | group | bare | tail
  deriving DecidableEq, Repr

/-- A spot in a text: the character in front of it, the text behind it, and the number
of characters of that text. -/
structure Spot where
  prev : Option Char
  rest : List Char
  left : Nat

namespace Spot

/-- The spot in front of a text. -/
def start (t : List Char) : Spot := ⟨none, t, t.length⟩

/-- Is the spot a border between word characters and others? -/
def isEdge (m : Spot) : Bool :=
  (m.prev.any Text.isWordChar) != (m.rest.head?.any Text.isWordChar)

end Spot

/-- A match: the spot behind it, and the marks that the kept parts leave at their begin
and at their end, in the order of the text. -/
structure Match where
  stop : Spot
  marks : List (Slot × Spot)

namespace Match

/-- The match of nothing at a spot. -/
def done (m : Spot) : Match := ⟨m, []⟩

/-- The match with one more mark in front. -/
def mark (s : Slot) (m : Spot) (r : Match) : Match := { r with marks := (s, m) :: r.marks }

/-- The text behind the match. -/
def rest (r : Match) : List Char := r.stop.rest

/-- Was the part matched? -/
def has (r : Match) (s : Slot) : Bool := r.marks.any (·.1 = s)

/-- The text of a part, if it was matched: what stands between its marks. -/
def part? (r : Match) (s : Slot) : Option (List Char) :=
  match r.marks.filter (·.1 = s) with
  | (_, a) :: (_, b) :: _ => some (a.rest.take (a.left - b.left))
  | _ => none

/-- The text of a part that every match has. -/
def part (r : Match) (s : Slot) : List Char := (r.part? s).getD []

end Match

/-- What a text may begin with. -/
inductive Pattern where
  /-- the text itself -/
  | exactly (t : List Char)
  /-- one of several texts, the earlier ones preferred -/
  | among (ts : List (List Char))
  /-- one character of a class -/
  | one (p : Char → Bool)
  /-- characters of a class, as many as possible -/
  | many (p : Char → Bool)
  /-- characters of a class, as few as possible -/
  | few (p : Char → Bool)
  /-- one behind the other -/
  | seq (a b : Pattern)
  /-- one or the other, the first preferred -/
  | either (a b : Pattern)
  /-- the begin or the end of a part that is kept -/
  | mark (s : Slot)
  /-- the start of the text -/
  | first
  /-- the end of the text -/
  | last
  /-- a place between a word character and another character, or the border of the text -/
  | edge

namespace Pattern

/-! ## Matching -/

/-- The continuation behind as many characters of the class as possible. -/
def runMany (p : Char → Bool) (k : Spot → Option Match) (prev : Option Char) :
    List Char → Nat → Option Match
  | [], left => k ⟨prev, [], left⟩
  | c :: t, left =>
    if p c then (runMany p k (some c) t (left - 1)).or (k ⟨prev, c :: t, left⟩)
    else k ⟨prev, c :: t, left⟩

/-- The continuation behind as few characters of the class as possible. -/
def runFew (p : Char → Bool) (k : Spot → Option Match) (prev : Option Char) :
    List Char → Nat → Option Match
  | [], left => k ⟨prev, [], left⟩
  | c :: t, left =>
    (k ⟨prev, c :: t, left⟩).or (if p c then runFew p k (some c) t (left - 1) else none)

/-- The continuation behind a text. -/
def runText (t : List Char) (k : Spot → Option Match) (m : Spot) : Option Match :=
  (Text.after? t m.rest).bind fun rest => k ⟨t.getLast?.or m.prev, rest, m.left - t.length⟩

/-- Matches the pattern at `m` and goes on with `k`; the first way that succeeds. -/
def run : Pattern → (Spot → Option Match) → Spot → Option Match
  | exactly t, k, m => runText t k m
  | among ts, k, m => ts.findSome? fun t => runText t k m
  | one p, k, m =>
    match m.rest with
    | [] => none
    | c :: t => if p c then k ⟨some c, t, m.left - 1⟩ else none
  | many p, k, m => runMany p k m.prev m.rest m.left
  | few p, k, m => runFew p k m.prev m.rest m.left
  | seq a b, k, m => run a (run b k) m
  | either a b, k, m => (run a k m).or (run b k m)
  | mark s, k, m => (k m).map (·.mark s m)
  | first, k, m => if m.prev.isNone then k m else none
  | last, k, m => if m.rest.isEmpty then k m else none
  | edge, k, m => if m.isEdge then k m else none

/-! ## Building patterns -/

/-- One behind the other. Sequences lean to the right, so that their first construct is
reached at once. -/
def andThen : Pattern → Pattern → Pattern
  | seq a b, c => seq a (andThen b c)
  | a, c => seq a c

instance : Append Pattern := ⟨andThen⟩

instance : OrElse Pattern := ⟨fun a b => either a (b ())⟩

def lit (s : String) : Pattern := exactly s.toList

/-- A word in capital or small letters. -/
def anyCase (s : String) : Pattern :=
  s.toList.foldr (fun c p => one (fun d => d.toLower = c) ++ p) (lit "")

/-- Matching a sequence is matching one behind the other. -/
theorem run_append (a b : Pattern) (k : Spot → Option Match) (m : Spot) :
    (a ++ b).run k m = a.run (b.run k) m := by
  show (andThen a b).run k m = _
  induction a generalizing m with
  | seq a c _ ih =>
    simp only [andThen, run]
    congr 1
    funext m
    exact ih m
  | _ => rfl

/-- A part that is kept. -/
def keep (s : Slot) (a : Pattern) : Pattern := mark s ++ a ++ mark s

/-- At least one character of the class, as many as possible. -/
def some1 (p : Char → Bool) : Pattern := one p ++ many p

/-- At least one character of the class, as few as possible. -/
def few1 (p : Char → Bool) : Pattern := one p ++ few p

/-- The pattern or nothing, the pattern preferred. -/
def opt (a : Pattern) : Pattern := a <|> lit ""

/-- One of the words, the earlier ones preferred. -/
def oneOf (ws : List String) : Pattern := among (ws.map String.toList)

def blanks : Pattern := many Text.isBlankChar

/-- At least one blank, as many as possible. -/
def gap : Pattern := some1 Text.isBlankChar

def noneOf (cs : String) (c : Char) : Bool := !cs.toList.contains c

/-- Any character but a line feed. -/
def inLine (c : Char) : Bool := c ≠ '\n'

/-- A keyword and the blanks behind it. -/
def word (w : String) : Pattern := lit w ++ gap

/-- A keyword that may be left out, kept if it is there. -/
def flag (s : Slot) (w : String) : Pattern := opt (keep s (word w))

/-- A name: letters, marks, digits, underscores and dollar signs, not a digit first. -/
def name : Pattern := one Text.isNameStart ++ many Text.isNameChar

end Pattern

end CodeAtlas
