/-
What the globs of an ignore file cost.

The globs of one file are looked for together: some by the text of a path, its last name
or its extension, and all others by automata with a state for each byte they read. The
automata have limits. A file whose globs do not fit into them says nothing at all, so
where the limits lie belongs to what a rule means, and this module computes it.

A glob counts as an expression over bytes. It is put into a normal form first: what
stands in a row is one row, the branches of a group are one level deep, branches of one
character each are a set, and what all branches begin with is taken out of them. The
size of the automaton is then a sum over the normal form. For each file two automata are
made, one that reads forward and keeps where matches begin and end, and one that reads
backward.
-/
import CodeAtlas.Files.Ignore.Glob
import CodeAtlas.Sum

set_option autoImplicit false

namespace CodeAtlas.Ignore

/-! ## How deep a glob is -/

def maxDepth : Nat := 250

/-- The number of parts that a piece has in the row in which it stands. -/
def Piece.partCount : Piece → Nat
  | .literal c => (byteChars [c]).length
  | .trailing => 2
  | .group [] => 0
  | _ => 1

/-- The levels of a row: one of its own, if it has several parts. -/
def rowDepth (ps : List Piece) (inside : Nat) : Nat :=
  if 1 < sumOf Piece.partCount ps then inside + 1 else inside

mutual

/-- The levels of a piece: sets, repetitions, groups, choices and rows are one each. -/
def Piece.depth : Piece → Nat
  | .literal _ => 0
  | .any => 1
  | .star => 2
  | .leading => 4
  | .inner => 4
  | .trailing => 1
  | .member _ ranges =>
    if 1 < (ranges.flatMap fun (a, b) => bytesBetween a b).length then 2 else 1
  | .group [] => 0
  | .group [b] => 1 + rowDepth b (deepest b)
  | .group branches => 2 + deepestBranch branches

/-- The levels of the deepest piece. -/
def deepest : List Piece → Nat
  | [] => 0
  | p :: ps => max p.depth (deepest ps)

/-- The levels of the deepest branch. -/
def deepestBranch : List (List Piece) → Nat
  | [] => 0
  | b :: bs => max (rowDepth b (deepest b)) (deepestBranch bs)

end

/-- Is the glob not too deep? It stands in a row of its own. -/
def Glob.isShallow (g : Glob) : Bool := 1 + deepest g ≤ maxDepth

/-! ## Expressions -/

/-- An expression over bytes. -/
inductive Form where
  /-- bytes one behind another -/
  | text (bytes : List Char)
  /-- one byte of a set -/
  | set (bytes : List Interval)
  /-- one character of a set, by its number; not all are single bytes -/
  | charSet (chars : List Interval)
  /-- bytes of a set, any number of them -/
  | many (bytes : List Interval)
  /-- one byte or nothing -/
  | optional (byte : Char)
  /-- the begin or the end of the path -/
  | border
  /-- one behind another -/
  | row (fs : List Form)
  /-- one of several -/
  | choice (fs : List Form)

namespace Form

mutual

def same : Form → Form → Bool
  | text a, text b => a = b
  | set a, set b => a = b
  | charSet a, charSet b => a = b
  | many a, many b => a = b
  | optional a, optional b => a = b
  | border, border => true
  | row as, row bs => sameAll as bs
  | choice as, choice bs => sameAll as bs
  | _, _ => false

def sameAll : List Form → List Form → Bool
  | [], [] => true
  | a :: as, b :: bs => same a b && sameAll as bs
  | _, _ => false

end

/-- A set of bytes; a single byte is a text. -/
def ofBytes (rs : List Interval) : Form :=
  match rs with
  | [(a, b)] => if a = b then text [Char.ofNat a] else set rs
  | _ => set rs

/-- The greatest number of a character that is a single byte. -/
def maxSingle : Nat := 127

/-- A set of characters; a single character is a text. -/
def ofChars (rs : List Interval) : Form :=
  if rs.all (·.2 ≤ maxSingle) then ofBytes rs
  else
    match rs with
    | [(a, b)] => if a = b then text (byteChars [Char.ofNat a]) else charSet rs
    | _ => charSet rs

/-! ## Rows -/

/-- One more expression in front; texts that meet are put together. -/
def push : Form → List Form → List Form
  | text a, text b :: fs => text (a ++ b) :: fs
  | f, fs => f :: fs

/-- The expressions one behind another; rows among them are opened. -/
def inRow (fs : List Form) : Form :=
  let opened := fs.flatMap fun
    | row gs => gs
    | f => [f]
  match opened.foldr push [] with
  | [f] => f
  | gs => row gs

/-! ## Choices -/

def char? : Form → Option Interval
  | text bytes =>
    match (Utf8.text? ⟨(bytes.map fun c => c.toNat.toUInt8).toArray⟩).map String.toList with
    | some [c] => some (c.toNat, c.toNat)
    | _ => none
  | _ => none

/-- The bytes of a set of bytes. -/
def bytes? : Form → Option (List Interval)
  | set rs => some rs
  | _ => none

/-- The characters of a set; bytes are characters only as far as single bytes are. -/
def chars? : Form → Option (List Interval)
  | set rs => if rs.all (·.2 ≤ maxSingle) then some rs else none
  | charSet rs => some rs
  | _ => none

/-- One set for several characters, or for several sets. -/
def asSet? (fs : List Form) : Option Form :=
  ((fs.mapM char?).map fun rs => ofChars (merged rs)).or
    (((fs.mapM chars?).map fun sets => ofChars (merged sets.flatten)).or
      ((fs.mapM bytes?).map fun sets => ofBytes (merged sets.flatten)))

/-- What two rows begin with. -/
def sharedStart : List Form → List Form → List Form
  | a :: as, b :: bs => if same a b then a :: sharedStart as bs else []
  | _, _ => []

/-- The parts of a row that has some. -/
def parts? : Form → Option (List Form)
  | row (f :: fs) => some (f :: fs)
  | _ => none

/-- One of several: a set, where all are characters or all are sets. -/
def someOf (fs : List Form) : Form :=
  let opened := fs.flatMap fun
    | choice gs => gs
    | f => [f]
  match opened with
  | [f] => f
  | gs => (asSet? gs).getD (choice gs)

/-- One of several; what all of them begin with stands in front of the choice. -/
def oneOf (fs : List Form) : Form :=
  match someOf fs with
  | choice gs =>
    match gs.mapM parts? with
    | some (r :: rows) =>
      match rows.foldl sharedStart r with
      | [] => choice gs
      | start => inRow (start ++ [someOf ((r :: rows).map fun x => inRow (x.drop start.length))])
    | _ => choice gs
  | f => f

end Form

/-! ## The expression of a glob -/

def allBytes : List Interval := [(0, 255)]

def nameBytes : List Interval := outsideFrom 0 [(47, 47)]

def slash : Form := .text ['/']

mutual

def Piece.form : Piece → Form
  | .literal c => .text (byteChars [c])
  | .any => .set nameBytes
  | .star => .many nameBytes
  | .leading => .choice [.optional '/', .row [.many allBytes, slash]]
  | .trailing => .row [slash, .many allBytes]
  | .inner => .choice [slash, .row [slash, .many allBytes, slash]]
  | .member negated ranges => Form.ofBytes (memberBytes negated ranges)
  | .group [] => .row []
  | .group branches => Form.oneOf (branchForms branches)

def pieceForms : List Piece → List Form
  | [] => []
  | p :: ps => p.form :: pieceForms ps

def branchForms : List (List Piece) → List Form
  | [] => []
  | b :: bs => Form.inRow (pieceForms b) :: branchForms bs

end

/-- The expression of a glob, from the begin of a path to its end. -/
def Glob.form : Glob → Form
  | [.leading] => .row [.border, .many allBytes, .border]
  | g => Form.inRow (.border :: pieceForms g ++ [.border])

/-! ## The size of an automaton -/

/-- The greatest size of an automaton, in bytes. -/
def maxSize : Nat := 10 * 1024 * 1024

/-- What a state takes. -/
def stateSize : Nat := 32

/-- What one range of bytes takes that leads out of a state. -/
def edgeSize : Nat := 8

/-- What a link from a state to another takes that reads nothing. -/
def linkSize : Nat := 4

/-- The distinct letters with which words begin. -/
def firstLetters {α : Type} [DecidableEq α] (words : List (List α)) : List α :=
  Text.unrepeated (words.filterMap List.head?)

/-- The words that begin with a letter, without it. -/
def behindLetter {α : Type} [DecidableEq α] (c : α) (words : List (List α)) : List (List α) :=
  words.filterMap fun
    | d :: w => if c = d then some w else none
    | [] => none

/-- The words of a choice, if it has nothing else. -/
def words? (fs : List Form) : Option (List (List Char)) :=
  fs.mapM fun
    | .text w => some w
    | _ => none

/-- The size of a choice of words, as a tree in which words share what they begin with;
`fuel` bounds the length of the words. -/
def treeSize : Nat → List (List Char) → Nat
  | 0, _ => 0
  | fuel + 1, words =>
    -- what all words end with costs nothing
    if words.all List.isEmpty then 0
    else
      -- a word that ends where others go on cuts those before it from those behind it
      let runs := words.splitOn []
      let cuts := runs.length - 1
      let idle := (runs.takeWhile List.isEmpty).length
      let sizes := (runs.filter (!·.isEmpty)).map fun run =>
        let letters := firstLetters run
        linkSize + stateSize + (if letters.length = 1 then 0 else edgeSize * letters.length) +
          sumOf (fun c => treeSize fuel (behindLetter c run)) letters
      stateSize + linkSize * (cuts - (idle - 1)) + sumOf id sizes

/-- What a set of bytes takes: a state that reads one, and one behind it. -/
def setSize (rs : List Interval) : Nat := 2 * stateSize + edgeSize * rs.length

/-! ## Sets of characters -/

/-- The encodings of the characters from `lo` to `hi` that have `more` bytes behind the
first one, as sequences of intervals of bytes. `mark` is added to the first byte, and 128
to each of the others, which has six bits of the number. `fuel` bounds the number of cuts
and steps. -/
def sequencesFrom : Nat → Nat → Nat → Nat → Nat → List (List Interval)
  | 0, _, _, _, _ => []
  | fuel + 1, more, mark, lo, hi =>
    let unit := Nat.pow 64 more
    let (a, b) := (lo / unit, hi / unit)
    -- the first byte is fixed, or the interval is cut until the other bytes are free
    if a = b ∧ more ≠ 0 then
      (sequencesFrom fuel (more - 1) 128 (lo % unit) (hi % unit)).map ((mark + a, mark + a) :: ·)
    else if lo % unit ≠ 0 then
      sequencesFrom fuel more mark lo ((a + 1) * unit - 1) ++
        sequencesFrom fuel more mark ((a + 1) * unit) hi
    else if hi % unit ≠ unit - 1 then
      sequencesFrom fuel more mark lo (b * unit - 1) ++ sequencesFrom fuel more mark (b * unit) hi
    else [(mark + a, mark + b) :: List.replicate more (128, 191)]

/-- The encodings of the characters of an interval: those of one byte, of two, three and
four. -/
def sequences (r : Interval) : List (List Interval) :=
  [(0, 0, 0, 127), (1, 192, 128, 2047), (2, 224, 2048, 65535), (3, 240, 65536, 1114111)].flatMap
    fun (more, mark, least, greatest) =>
      let (lo, hi) := (max r.1 least, min r.2 greatest)
      if lo ≤ hi then sequencesFrom 16 more mark lo hi else []

/-- What can follow the beginnings of sequences, where something can. -/
def remainders : Nat → List (List Interval) → List (List (List Interval))
  | 0, _ => []
  | fuel + 1, seqs =>
    if seqs.all List.isEmpty then []
    else seqs :: (firstLetters seqs).flatMap fun r => remainders fuel (behindLetter r seqs)

/-- What a set of characters takes. -/
def charSetSize (backward : Bool) (rs : List Interval) : Nat :=
  let seqs := rs.flatMap sequences
  -- backward there is a state for each beginning of an encoding, forward for each remainder
  if backward then
    let beginnings := Text.unrepeated
      (seqs.flatMap fun s => (List.range s.length).map fun k => s.take (k + 1))
    2 * stateSize + linkSize * seqs.length + stateSize * beginnings.length
  else
    let states := Text.unrepeated (remainders 4 seqs)
    stateSize + sumOf (fun s => stateSize + edgeSize * (firstLetters s).length) states

/-! ## Expressions and globs -/

mutual

/-- The size of an expression in an automaton that reads forward or backward. -/
def Form.size (backward : Bool) : Form → Nat
  | .text bytes => stateSize * bytes.length
  | .set rs => setSize rs
  | .charSet rs => charSetSize backward rs
  | .many rs => stateSize + 2 * linkSize + setSize rs
  | .optional _ => 3 * stateSize + 2 * linkSize
  | .border => stateSize
  | .row [] => stateSize
  | .row fs => sizeOfAll backward fs
  | .choice fs =>
    match words? fs with
    | some words =>
      let words := if backward then words.map List.reverse else words
      stateSize + treeSize (words.foldl (fun n w => max n w.length) 0) words
    | none => 2 * stateSize + linkSize * fs.length + sizeOfAll backward fs

def sizeOfAll (backward : Bool) : List Form → Nat
  | [] => 0
  | f :: fs => f.size backward + sizeOfAll backward fs

end

/-- The size of the automaton of several globs. Each of them has a state at its end, and
forward also two that keep where it begins and ends; several have states around them. -/
def automatonSize (backward : Bool) (globs : List Glob) : Nat :=
  let ends := if backward then stateSize else 3 * stateSize
  let each := sumOf (fun g => g.form.size backward + ends) globs
  let around := if 1 < globs.length then 2 * stateSize + linkSize * globs.length else 0
  stateSize + around + each

/-- Can the automata of the globs be made? -/
def haveAutomata (globs : List Glob) : Bool :=
  globs.all Glob.isShallow &&
    [false, true].all fun backward => automatonSize backward globs ≤ maxSize

/-! ## The globs of a file -/

/-- How a glob is looked for. -/
inductive Lookup where
  /-- by the text of the path, of its last name or of its extension -/
  | byText
  /-- by automata of its own, where the extension is right -/
  | alone
  /-- by automata with all others of the file -/
  | together
  deriving DecidableEq

/-- The character of a piece that stands for itself. -/
def Piece.char? : Piece → Option Char
  | .literal c => some c
  | _ => none

/-- Does a glob, backwards, end in an extension? -/
def endsInExtension : List Piece → Bool
  | .literal c :: ps => c = '.' || c ≠ '/' && endsInExtension ps
  | _ => false

/-- How a glob is looked for: by text if it has nothing but characters, behind two stars
or not, or nothing but an extension behind stars. -/
def Glob.lookup (g : Glob) : Lookup :=
  let plain := match g with
    | .leading :: .star :: .literal '.' :: ps =>
      ps.all fun p => p.char?.any fun c => c ≠ '.' && c ≠ '/'
    | .leading :: p :: ps => (p :: ps).all (·.char?.isSome)
    | p :: ps => (p :: ps).all (·.char?.isSome)
    | [] => false
  if plain then .byText else if endsInExtension g.reverse then .alone else .together

/-- Do the globs of one file fit into the automata? -/
def Glob.fitTogether (globs : List Glob) : Bool :=
  (globs.filter (·.lookup = .alone)).all (haveAutomata [·]) &&
    haveAutomata (globs.filter (·.lookup = .together))

end CodeAtlas.Ignore
