/-
Writing JSON.

Two layouts: without blanks, and with one item or field on a line, indented by two
spaces for each level. Characters outside ASCII stand for themselves; control
characters, the quote and the backslash are escaped.
-/
import CodeAtlas.Decimal.Shortest
import CodeAtlas.Json.Basic

set_option autoImplicit false

namespace CodeAtlas.Json

/-! ## Texts -/

def hexDigit (n : Nat) : Char := (Nat.toDigits 16 (n % 16)).headD '0'

/-- How a character is written between quotes. -/
def escapeChar (c : Char) : List Char :=
  if c = '"' then ['\\', '"']
  else if c = '\\' then ['\\', '\\']
  else if c = '\n' then ['\\', 'n']
  else if c = '\r' then ['\\', 'r']
  else if c = '\t' then ['\\', 't']
  else if c = '\x08' then ['\\', 'b']
  else if c = '\x0c' then ['\\', 'f']
  else if c.toNat < 0x20 then
    ['\\', 'u', '0', '0', hexDigit (c.toNat / 16), hexDigit c.toNat]
  else [c]

def quote (s : String) : String :=
  String.ofList ('"' :: (s.toList.flatMap escapeChar ++ ['"']))

/-! ## Numbers -/

/-- How a decimal is written: positionally, with at least one place, where its point is
at most sixteen digits behind the first one and at most four zeros in front of it;
otherwise with one digit in front of the point and an exponent. -/
def decimalText (d : Decimal.Scaled) : String :=
  let digits := toString d.digits
  let len : Int := digits.length
  let point := len + d.exponent
  let zeros := fun (n : Int) => String.ofList (List.replicate n.toNat '0')
  if d.digits = 0 then "0.0"
  else if 0 ≤ d.exponent && point ≤ 16 then digits ++ zeros d.exponent ++ ".0"
  else if 0 < point && point ≤ 16 then
    String.ofList (digits.toList.take point.toNat) ++ "." ++
      String.ofList (digits.toList.drop point.toNat)
  else if -5 < point && point ≤ 0 then "0." ++ zeros (-point) ++ digits
  else
    let lead := String.ofList (digits.toList.take 1)
    let places := String.ofList (digits.toList.drop 1)
    lead ++ (if places.isEmpty then "" else "." ++ places) ++ "e" ++ toString (point - 1)

/-- A floating-point number in its shortest form. -/
def floatText (bits : UInt64) : String :=
  let sign := if bits.toNat < Nat.pow 2 63 then "" else "-"
  sign ++ decimalText (Decimal.shortest (Decimal.Binary.ofBits bits))

/-! ## Layouts -/

/-- A line break and the indentation of a level. -/
def newLine (level : Nat) : String := "\n" ++ String.ofList (List.replicate (2 * level) ' ')

mutual

/-- Writes a value without blanks. -/
def compact : Json → String
  | .null => "null"
  | .bool b => if b then "true" else "false"
  | .int n => toString n
  | .float bits => floatText bits
  | .str s => quote s
  | .arr items => "[" ++ ",".intercalate (compactItems items) ++ "]"
  | .obj fields => "\x7b" ++ ",".intercalate (compactFields fields) ++ "\x7d"

def compactItems : List Json → List String
  | [] => []
  | j :: js => compact j :: compactItems js

def compactFields : List (String × Json) → List String
  | [] => []
  | (k, v) :: rest => (quote k ++ ":" ++ compact v) :: compactFields rest

end

mutual

/-- Writes a value that stands at a level, one item or field on a line. -/
def prettyAt (level : Nat) : Json → String
  | .arr [] => "[]"
  | .arr (j :: js) =>
    "[" ++ ",".intercalate (prettyItems (level + 1) (j :: js)) ++ newLine level ++ "]"
  | .obj [] => "\x7b\x7d"
  | .obj (f :: fs) =>
    "\x7b" ++ ",".intercalate (prettyFields (level + 1) (f :: fs)) ++ newLine level ++ "\x7d"
  | j => compact j

/-- The items of an array, each on a line of its own. -/
def prettyItems (level : Nat) : List Json → List String
  | [] => []
  | j :: js => (newLine level ++ prettyAt level j) :: prettyItems level js

/-- The fields of an object, each on a line of its own. -/
def prettyFields (level : Nat) : List (String × Json) → List String
  | [] => []
  | (k, v) :: rest =>
    (newLine level ++ quote k ++ ": " ++ prettyAt level v) :: prettyFields level rest

end

/-- Writes a value with one item or field on a line. -/
def pretty (j : Json) : String := prettyAt 0 j

end CodeAtlas.Json
