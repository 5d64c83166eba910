/-
The tokens of a settings file.

The file is written in TOML. Of this language the settings need keys, texts, truth
values and lists of texts; what has no token here can stand in no file with settings
alone. Blanks and comments have no token, line breaks have one.
-/
import CodeAtlas.Json.Token
import CodeAtlas.Text.Basic

set_option autoImplicit false

namespace CodeAtlas.Settings

inductive Token where
  | newline | equals | comma | openList | closeList
  /-- a key or a truth value without quotes -/
  | word (s : String)
  /-- a text; `spread` if it may hold line breaks -/
  | text (s : String) (spread : Bool)
  deriving DecidableEq, Repr

/-! ## Characters -/

/-- A character that may stand in a comment or a text. -/
def isVisible (c : Char) : Bool := c = '\t' || (0x20 ≤ c.toNat && c.toNat ≠ 0x7F)

/-- A character of a key without quotes. -/
def isWordChar (c : Char) : Bool := c.isAlphanum || c = '_' || c = '-'

/-- The character behind a backslash that stands for a single one. -/
def shortEscape? (c : Char) : Option Char :=
  match c with
  | 'b' => some '\x08'
  | 't' => some '\t'
  | 'n' => some '\n'
  | 'f' => some '\x0c'
  | 'r' => some '\r'
  | '"' => some '"'
  | '\\' => some '\\'
  | _ => none

/-- The character with a number, if it is one. -/
def charOf? (n : Nat) : Option Char := if n.isValidChar then some (Char.ofNat n) else none

/-- The character that hexadecimal digits write. -/
def hexChar? (ds : List Char) : Option Char :=
  (ds.foldlM (fun n d => (Json.hexValue? d).map (n * 16 + ·)) 0).bind charOf?

/-! ## Texts on one line -/

/-- Reads a text between double quotes up to its end; `seen` stands backwards. -/
def readQuoted (seen : List Char) : List Char → Option (String × List Char)
  | '"' :: t => some (String.ofList seen.reverse, t)
  | '\\' :: 'u' :: a :: b :: c :: d :: t =>
    match hexChar? [a, b, c, d] with
    | some e => readQuoted (e :: seen) t
    | none => none
  | '\\' :: 'U' :: a :: b :: c :: d :: e :: f :: g :: h :: t =>
    match hexChar? [a, b, c, d, e, f, g, h] with
    | some e => readQuoted (e :: seen) t
    | none => none
  | '\\' :: c :: t =>
    match shortEscape? c with
    | some e => readQuoted (e :: seen) t
    | none => none
  | c :: t => if isVisible c then readQuoted (c :: seen) t else none
  | [] => none

/-- Reads a text between single quotes up to its end. -/
def readLiteral (t : List Char) : Option (String × List Char) := do
  let (body, rest) ← Text.cut? ['\''] t
  guard (body.all isVisible)
  return (String.ofList body, rest)

/-! ## Texts on several lines -/

def dropBreak : List Char → List Char
  | '\n' :: t => t
  | '\r' :: '\n' :: t => t
  | t => t

/-- The quotes in front of a text. -/
def quotesOf (q : Char) (t : List Char) : Nat := (t.takeWhile (· = q)).length

/-- Ends a text on several lines where `n` quotes stand, three of which close it; at most
two more belong to the text. -/
def closeSpread (q : Char) (n : Nat) (seen t : List Char) : Option (String × List Char) :=
  if n ≤ 5 then
    some (String.ofList (seen.reverse ++ List.replicate (n - 3) q), t.drop n)
  else none

def dropSpace (t : List Char) : List Char :=
  match t with
  | '\r' :: '\n' :: t => dropSpace t
  | c :: t => if c = ' ' || c = '\t' || c = '\n' then dropSpace t else c :: t
  | [] => []

/-- The rest behind a backslash at the end of a line, and behind all space that follows
it; nothing if the line goes on. -/
def continued? (t : List Char) : Option (List Char) :=
  match t.dropWhile fun c => c = ' ' || c = '\t' with
  | '\n' :: t => some (dropSpace t)
  | '\r' :: '\n' :: t => some (dropSpace t)
  | _ => none

/-- Reads a text between three double quotes up to its end. A step takes at least one
character. -/
def readSpread (fuel : Nat) (seen t : List Char) : Option (String × List Char) :=
  match fuel, t with
  | 0, _ => none
  | _, [] => none
  | fuel + 1, '\r' :: '\n' :: t => readSpread fuel ('\n' :: seen) t
  | fuel + 1, '\n' :: t => readSpread fuel ('\n' :: seen) t
  | fuel + 1, '"' :: t =>
    let n := quotesOf '"' t + 1
    if n < 3 then readSpread fuel ('"' :: seen) t else closeSpread '"' n seen ('"' :: t)
  | fuel + 1, '\\' :: t =>
    match continued? t, t with
    | some rest, _ => readSpread fuel seen rest
    | none, 'u' :: a :: b :: c :: d :: t =>
      (hexChar? [a, b, c, d]).bind fun x => readSpread fuel (x :: seen) t
    | none, 'U' :: a :: b :: c :: d :: e :: f :: g :: h :: t =>
      (hexChar? [a, b, c, d, e, f, g, h]).bind fun x => readSpread fuel (x :: seen) t
    | none, c :: t => (shortEscape? c).bind fun x => readSpread fuel (x :: seen) t
    | none, [] => none
  | fuel + 1, c :: t => if isVisible c then readSpread fuel (c :: seen) t else none

/-- Reads a text between three single quotes up to its end. -/
def readSpreadLiteral (seen : List Char) : List Char → Option (String × List Char)
  | [] => none
  | '\r' :: '\n' :: t => readSpreadLiteral ('\n' :: seen) t
  | '\n' :: t => readSpreadLiteral ('\n' :: seen) t
  | '\'' :: t =>
    let n := quotesOf '\'' t + 1
    if n < 3 then readSpreadLiteral ('\'' :: seen) t else closeSpread '\'' n seen ('\'' :: t)
  | c :: t => if isVisible c then readSpreadLiteral (c :: seen) t else none

/-! ## All tokens -/

/-- A text token behind its first quotes. -/
def textToken (spread : Bool) (r : Option (String × List Char)) : Option (Token × List Char) :=
  r.map fun (s, t) => (.text s spread, t)

/-- Reads one token from the front of a text without blanks in front. -/
def readToken : List Char → Option (Token × List Char)
  | '\n' :: t => some (.newline, t)
  | '\r' :: '\n' :: t => some (.newline, t)
  | '=' :: t => some (.equals, t)
  | ',' :: t => some (.comma, t)
  | '[' :: t => some (.openList, t)
  | ']' :: t => some (.closeList, t)
  | '"' :: '"' :: '"' :: t => textToken true (readSpread (t.length + 1) [] (dropBreak t))
  | '\'' :: '\'' :: '\'' :: t => textToken true (readSpreadLiteral [] (dropBreak t))
  | '"' :: t => textToken false (readQuoted [] t)
  | '\'' :: t => textToken false (readLiteral t)
  | t =>
    let w := t.takeWhile isWordChar
    if w.isEmpty then none else some (.word (String.ofList w), t.dropWhile isWordChar)

/-- Without the comment in front, if there is one; nothing if it holds a character that
may not stand in it. -/
def dropComment? : List Char → Option (List Char)
  | '#' :: t =>
    match t.dropWhile isVisible with
    | [] => some []
    | '\n' :: rest => some ('\n' :: rest)
    | '\r' :: '\n' :: rest => some ('\r' :: '\n' :: rest)
    | _ => none
  | t => some t

/-- The tokens of a text. A token takes at least one character, so as many steps as the
text has characters are enough. -/
def tokensFrom (fuel : Nat) (t : List Char) (seen : List Token) : Option (List Token) :=
  match fuel, dropComment? (t.dropWhile fun c => c = ' ' || c = '\t') with
  | _, none => none
  | _, some [] => some seen.reverse
  | 0, _ => none
  | fuel + 1, some t =>
    match readToken t with
    | some (token, t) => tokensFrom fuel t (token :: seen)
    | none => none

/-- The tokens of a text; a byte order mark in front does not count. -/
def tokens? (t : List Char) : Option (List Token) :=
  let t := match t with
    | '\uFEFF' :: t => t
    | t => t
  tokensFrom t.length t []

end CodeAtlas.Settings
