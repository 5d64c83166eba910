/-
Quoted literals.

A literal stands between two equal quotes, of three kinds, and a backslash inside
it takes the next character with it. A scanner only has to know where it stands:
in code, inside a literal, or just behind a backslash inside one. `Quoting.next`
is that knowledge, one character at a time, so that what a scanner does on `s ++ t`
is what it does on `t` from where `s` leaves it.
-/

set_option autoImplicit false

namespace CodeAtlas

/-- Where a scanner stands with respect to quoted literals. -/
inductive Quoting where
  | code
  | literal (quote : Char)
  | escape (quote : Char)
  deriving DecidableEq, Repr

namespace Quoting

/-- The characters that open and close a literal. -/
def isQuote (c : Char) : Bool := c = '"' || c = '\'' || c = '\x60'

/-- Where the scanner stands behind one more character. -/
def next : Quoting → Char → Quoting
  | .code, c => if isQuote c then .literal c else .code
  | .literal q, c => if c = '\\' then .escape q else if c = q then .code else .literal q
  | .escape q, _ => .literal q

/-- Where the scanner stands behind a text. -/
def after (st : Quoting) (t : List Char) : Quoting := t.foldl next st

theorem after_append (st : Quoting) (s t : List Char) :
    st.after (s ++ t) = (st.after s).after t := List.foldl_append

theorem next_code_of_not_isQuote {c : Char} (h : isQuote c = false) : next .code c = .code := by
  simp [next, h]

end Quoting

end CodeAtlas
