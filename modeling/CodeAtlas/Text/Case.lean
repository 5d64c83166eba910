/-
Lower case.

Texts are lowered only to look for words written in ASCII. Besides the capital
letters of ASCII, two characters have a lower case that contains an ASCII letter:
the Kelvin sign becomes `k`, and the dotted capital I becomes `i` with a combining
dot. No other character can add or remove an occurrence of such a word, so all
others stay as they are.
-/

set_option autoImplicit false

namespace CodeAtlas.Text

/-- The lower case of one character, as far as ASCII letters occur in it. -/
def lowerChar (c : Char) : List Char :=
  if c = '\u212A' then ['k']
  else if c = '\u0130' then ['i', '\u0307']
  else [c.toLower]

/-- The lower case of a text, as far as ASCII letters occur in it. -/
def lower (t : List Char) : List Char := t.flatMap lowerChar

/-- Lowers the capital letters of ASCII and nothing else. -/
def lowerAscii (t : List Char) : List Char := t.map Char.toLower

theorem lower_append (s t : List Char) : lower (s ++ t) = lower s ++ lower t :=
  List.flatMap_append

end CodeAtlas.Text
