/-
The tokens of JSON.

A text is a sequence of tokens with blanks around them: brackets, commas, colons,
literals. A token is read from the front of the text and leaves a shorter rest.
-/
import CodeAtlas.Json.Basic

set_option autoImplicit false

namespace CodeAtlas.Json

/-- A token; a literal stands for its value. -/
inductive Token where
  | openArr | closeArr | openObj | closeObj | comma | colon
  | str (s : String)
  | int (n : Int)
  | float (bits : UInt64)
  | bool (b : Bool)
  | null
  deriving DecidableEq, Repr

/-! ## Texts -/

def hexValue? (c : Char) : Option Nat :=
  if c.isDigit then some (c.toNat - '0'.toNat)
  else if 'a' ≤ c && c ≤ 'f' then some (c.toNat - 'a'.toNat + 10)
  else if 'A' ≤ c && c ≤ 'F' then some (c.toNat - 'A'.toNat + 10)
  else none

/-- The number that four hexadecimal digits write. -/
def hexFour? (a b c d : Char) : Option Nat := do
  return (((← hexValue? a) * 16 + (← hexValue? b)) * 16 + (← hexValue? c)) * 16 + (← hexValue? d)

/-- Is the number the first half of a pair that writes one character? -/
def isHighHalf (n : Nat) : Bool := 0xD800 ≤ n && n < 0xDC00

/-- Is the number the second half of a pair that writes one character? -/
def isLowHalf (n : Nat) : Bool := 0xDC00 ≤ n && n < 0xE000

/-- The character behind a backslash that stands for a single one. -/
def shortEscape? (c : Char) : Option Char :=
  match c with
  | '"' => some '"'
  | '\\' => some '\\'
  | '/' => some '/'
  | 'b' => some '\x08'
  | 'f' => some '\x0c'
  | 'n' => some '\n'
  | 'r' => some '\r'
  | 't' => some '\t'
  | _ => none

/-- Reads a text up to its closing quote; `seen` are the characters so far, backwards. -/
def readText (seen : List Char) : List Char → Option (String × List Char)
  | [] => none
  | '"' :: t => some (String.ofList seen.reverse, t)
  | '\\' :: 'u' :: a :: b :: c :: d :: t =>
    match hexFour? a b c d with
    | none => none
    | some n =>
      if isLowHalf n then none
      else if isHighHalf n then
        match t with
        | '\\' :: 'u' :: a :: b :: c :: d :: t =>
          match hexFour? a b c d with
          | some m =>
            if isLowHalf m then
              readText (Char.ofNat (0x10000 + (n - 0xD800) * 0x400 + (m - 0xDC00)) :: seen) t
            else none
          | none => none
        | _ => none
      else readText (Char.ofNat n :: seen) t
  | '\\' :: c :: t =>
    match shortEscape? c with
    | some e => readText (e :: seen) t
    | none => none
  | c :: t => if c.toNat < 0x20 then none else readText (c :: seen) t

/-! ## Numbers -/

/-- The greatest number of sixty-four bits. -/
def maxWord : Nat := Nat.pow 2 64 - 1

/-- The greatest exponent that is read. -/
def maxExponent : Nat := Nat.pow 2 31 - 1

def digitValue (c : Char) : Nat := c.toNat - '0'.toNat

/-- The leading digits of a number as far as they fit into a word: their value and the
digits that are left out. -/
def takeDigits (value : Nat) : List Char → Nat × List Char
  | [] => (value, [])
  | c :: t =>
    let next := value * 10 + digitValue c
    if next ≤ maxWord then takeDigits next t else (value, c :: t)

def powerOfTen (e : Nat) : Float := Float.ofScientific 1 false e

/-- Divides by powers of ten; in steps where the power is too great to be a number. -/
def scaleDown (x : Float) (e : Nat) : Nat → Float
  | 0 => x
  | fuel + 1 =>
    if e ≤ 308 then x / powerOfTen e
    else if x == 0 then x
    else scaleDown (x / powerOfTen 308) (e - 308) fuel

/-- The number `significand * 10 ^ exponent`, rounded once for the significand and once
for the power; nothing if it is too great. -/
def floatOf? (negative : Bool) (significand : Nat) (exponent : Int) : Option UInt64 :=
  let x := significand.toUInt64.toFloat
  let scaled? :=
    if exponent < 0 then some (scaleDown x (-exponent).toNat 10)
    else if exponent ≤ 308 then
      let y := x * powerOfTen exponent.toNat
      if y.isInf then none else some y
    else if x == 0 then some x
    else none
  scaled?.map fun y => (if negative then -y else y).toBits

/-- The parts of a number as written: digits in front of the point, digits behind it,
and the exponent with its sign. -/
structure Written where
  negative : Bool
  whole : List Char
  places : Option (List Char)
  exponent : Option (Bool × List Char)

/-- The significand and the exponent of the digits: what does not fit into a word is left
out, and counts for the exponent if it stands in front of the point. -/
def Written.digits (w : Written) : Nat × Int :=
  let (value, dropped) := takeDigits 0 w.whole
  let places := w.places.getD []
  let (value, left) := takeDigits value places
  (value, (dropped.length : Int) - (places.length - left.length : Nat))

/-- The value of a number; nothing if it is too great. -/
def Written.token? (w : Written) : Option Token :=
  let (value, exponent) := w.digits
  if w.places.isNone && w.exponent.isNone && exponent = 0 then
    if !w.negative then some (.int value)
    else if 0 < value && value ≤ Nat.pow 2 63 then some (.int (-value))
    else (floatOf? true value 0).map .float
  else
    match w.exponent with
    | none => (floatOf? w.negative value exponent).map .float
    | some (down, ds) =>
      let e := ds.foldl (fun e c => e * 10 + digitValue c) 0
      if maxExponent < e then
        if value ≠ 0 && !down then none else (floatOf? w.negative 0 0).map .float
      else (floatOf? w.negative value (exponent + if down then -(e : Int) else e)).map .float

/-- Reads the digits behind a point, at least one. -/
def readPlaces : List Char → Option (Option (List Char) × List Char)
  | '.' :: t =>
    let ds := t.takeWhile Char.isDigit
    if ds.isEmpty then none else some (some ds, t.dropWhile Char.isDigit)
  | t => some (none, t)

/-- The sign of an exponent, and what follows it. -/
def readSign : List Char → Bool × List Char
  | '+' :: t => (false, t)
  | '-' :: t => (true, t)
  | t => (false, t)

/-- Reads an exponent, with at least one digit. -/
def readExponent : List Char → Option (Option (Bool × List Char) × List Char)
  | c :: t =>
    if c = 'e' || c = 'E' then
      let (down, t) := readSign t
      let ds := t.takeWhile Char.isDigit
      if ds.isEmpty then none else some (some (down, ds), t.dropWhile Char.isDigit)
    else some (none, c :: t)
  | [] => some (none, [])

/-- Reads a number behind its sign. A zero in front of other digits is refused. -/
def readNumber (negative : Bool) (t : List Char) : Option (Token × List Char) := do
  let whole := t.takeWhile Char.isDigit
  guard (!whole.isEmpty && (whole.head? ≠ some '0' || whole.length = 1))
  let (places, t) ← readPlaces (t.dropWhile Char.isDigit)
  let (exponent, t) ← readExponent t
  let token ← Written.token? { negative, whole, places, exponent }
  return (token, t)

/-! ## All tokens -/

def isSpace (c : Char) : Bool := c = ' ' || c = '\n' || c = '\t' || c = '\r'

/-- Reads one token from the front of a text without blanks in front. -/
def readToken : List Char → Option (Token × List Char)
  | '[' :: t => some (.openArr, t)
  | ']' :: t => some (.closeArr, t)
  | '{' :: t => some (.openObj, t)
  | '}' :: t => some (.closeObj, t)
  | ',' :: t => some (.comma, t)
  | ':' :: t => some (.colon, t)
  | '"' :: t => (readText [] t).map fun (s, t) => (.str s, t)
  | 't' :: 'r' :: 'u' :: 'e' :: t => some (.bool true, t)
  | 'f' :: 'a' :: 'l' :: 's' :: 'e' :: t => some (.bool false, t)
  | 'n' :: 'u' :: 'l' :: 'l' :: t => some (.null, t)
  | '-' :: t => readNumber true t
  | t => readNumber false t

/-- The tokens of a text. A token takes at least one character, so as many steps as the
text has characters are enough. -/
def tokensFrom (fuel : Nat) (t : List Char) (seen : List Token) : Option (List Token) :=
  match fuel, t.dropWhile isSpace with
  | _, [] => some seen.reverse
  | 0, _ => none
  | fuel + 1, t =>
    match readToken t with
    | some (token, t) => tokensFrom fuel t (token :: seen)
    | none => none

def tokens? (t : List Char) : Option (List Token) := tokensFrom t.length t []

end CodeAtlas.Json
