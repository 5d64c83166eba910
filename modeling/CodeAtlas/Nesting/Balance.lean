/-
Counting brackets outside literals.

Curly brackets are counted line by line, up to a line comment. Round brackets are
counted in a whole signature. A round group is taken apart into what stands inside
it and what follows it.
-/
import CodeAtlas.Nesting.Quoting

set_option autoImplicit false

namespace CodeAtlas

/-! ## Curly brackets of one line -/

/-- How many curly brackets a line opens and closes. -/
structure BraceCount where
  opens : Nat
  closes : Nat
  deriving DecidableEq, Repr

namespace BraceCount

/-- Counts one more character of code. -/
def add (n : BraceCount) (c : Char) : BraceCount :=
  if c = '{' then { n with opens := n.opens + 1 }
  else if c = '}' then { n with closes := n.closes + 1 }
  else n

/-- Opened less closed. -/
def delta (n : BraceCount) : Int := (n.opens : Int) - n.closes

end BraceCount

/-- The curly brackets outside literals, up to the first `//` outside literals. -/
def braceCountFrom : Quoting → List Char → BraceCount
  | _, [] => ⟨0, 0⟩
  | .code, '/' :: '/' :: _ => ⟨0, 0⟩
  | .code, c :: t => (braceCountFrom (Quoting.code.next c) t).add c
  | st, c :: t => braceCountFrom (st.next c) t

def braceCount (l : List Char) : BraceCount := braceCountFrom .code l

/-- Curly brackets opened less closed on one line. -/
def braceDelta (l : List Char) : Int := (braceCount l).delta

/-! ## Round brackets -/

/-- The value of one character of code in the balance of round brackets. -/
def parenValue (c : Char) : Int := if c = '(' then 1 else if c = ')' then -1 else 0

/-- Round brackets opened less closed outside literals. -/
def parenBalanceFrom : Quoting → List Char → Int
  | _, [] => 0
  | .code, c :: t => parenValue c + parenBalanceFrom (Quoting.code.next c) t
  | st, c :: t => parenBalanceFrom (st.next c) t

/-- Round brackets opened less closed outside literals. -/
def parenBalance (t : List Char) : Int := parenBalanceFrom .code t

/-- Reads up to the bracket that closes the innermost of `depth + 1` open groups:
what stands before it, and what follows it. -/
def closeGroup? : Quoting → Nat → List Char → Option (List Char × List Char)
  | _, _, [] => none
  | .code, depth, c :: t =>
    match c, depth with
    | ')', 0 => some ([], t)
    | ')', d + 1 => (closeGroup? .code d t).map fun (inner, rest) => (')' :: inner, rest)
    | '(', d => (closeGroup? .code (d + 1) t).map fun (inner, rest) => ('(' :: inner, rest)
    | c, d =>
      (closeGroup? (Quoting.code.next c) d t).map fun (inner, rest) => (c :: inner, rest)
  | st, depth, c :: t =>
    (closeGroup? (st.next c) depth t).map fun (inner, rest) => (c :: inner, rest)

/-- The inside of the round group that the text begins with, and what follows it. -/
def takeGroup? : List Char → Option (List Char × List Char)
  | '(' :: t => closeGroup? .code 0 t
  | _ => none

end CodeAtlas
