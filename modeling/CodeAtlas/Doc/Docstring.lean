/-
Docstrings.

A docstring is a text between triple quotes on the lines behind a header. Its
description is the first paragraph.
-/
import CodeAtlas.Doc.Block

set_option autoImplicit false

namespace CodeAtlas

/-- A docstring and the number of lines that it takes after its first one. -/
structure Docstring where
  doc : Doc
  further : Nat
  deriving DecidableEq, Repr

namespace Docstring

/-- The triple quote that a text begins with, and what follows it. -/
def opening? (t : List Char) : Option (List Char × List Char) :=
  match t with
  | '"' :: '"' :: '"' :: rest => some (['"', '"', '"'], rest)
  | '\'' :: '\'' :: '\'' :: rest => some (['\'', '\'', '\''], rest)
  | _ => none

/-- The trimmed lines up to the closing quote, and the number of the line that holds
it, where `read` lines were read before; without a closing quote, all lines. -/
def bodyFrom (quote : List Char) (read : Nat) : List Line → List Line × Nat
  | [] => ([], read - 1)
  | l :: ls =>
    match Text.cut? quote (Text.trim l) with
    | some (before, _) => ([Text.trim before], read)
    | none =>
      let (body, further) := bodyFrom quote (read + 1) ls
      (Text.trim l :: body, further)

/-- The lines without the empty ones at both ends. -/
def trimLines (body : List Line) : List Line :=
  ((body.dropWhile (·.isEmpty)).reverse.dropWhile (·.isEmpty)).reverse

def docOf (body : List Line) : Doc :=
  let body := trimLines body
  { description := Doc.unlessBlank ([' '].intercalate (body.takeWhile (!·.isEmpty))),
    full := Doc.unlessBlank (['\n'].intercalate body) }

/-- May the letter stand in front of the quote? -/
def isMark (c : Char) : Bool := c = 'r' || c = 'R' || c = 'u' || c = 'U'

/-- The docstring that opens on the first line. -/
def at? : List Line → Option Docstring
  | [] => none
  | l :: ls => do
    let (quote, rest) ← opening? ((Text.trim l).dropWhile isMark)
    match Text.cut? quote rest with
    | some (before, _) => return ⟨docOf [Text.trim before], 0⟩
    | none =>
      let (body, further) := bodyFrom quote 1 ls
      return ⟨docOf (Text.trim rest :: body), further⟩

/-- The docstring on the first line that is not blank, if that line is indented deeper
than `base`; the answer counts from the first of the lines. -/
def within? (base : Nat) (ls : List Line) : Option Docstring :=
  let blank := (ls.takeWhile Text.isBlank).length
  match ls.drop blank with
  | [] => none
  | l :: rest =>
    if Text.indentation l ≤ base then none
    else (at? (l :: rest)).map fun d => { d with further := d.further + blank }

end Docstring

end CodeAtlas
