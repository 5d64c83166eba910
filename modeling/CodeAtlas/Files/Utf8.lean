/-
Bytes as text.

Bytes that are UTF-8 stand for one text. Other bytes can still be read: each maximal
part that begins a character and does not complete it is replaced by one replacement
character.
-/

set_option autoImplicit false

namespace CodeAtlas.Utf8

def replacement : Char := '\uFFFD'

/-- The bounds of the second byte of a character with the given first byte, and the
number of bytes; nothing if no character begins so. -/
def secondBounds? (b : UInt8) : Option (UInt8 × UInt8 × Nat) :=
  if 0xC2 ≤ b && b ≤ 0xDF then some (0x80, 0xBF, 2)
  else if b = 0xE0 then some (0xA0, 0xBF, 3)
  else if b = 0xED then some (0x80, 0x9F, 3)
  else if 0xE1 ≤ b && b ≤ 0xEF then some (0x80, 0xBF, 3)
  else if b = 0xF0 then some (0x90, 0xBF, 4)
  else if 0xF1 ≤ b && b ≤ 0xF3 then some (0x80, 0xBF, 4)
  else if b = 0xF4 then some (0x80, 0x8F, 4)
  else none

/-- Does the byte go on with a character? -/
def goesOn (b : UInt8) : Bool := 0x80 ≤ b && b ≤ 0xBF

def low (b : UInt8) : Nat := b.toNat % 64

/-- Reads the bytes behind a first byte: the character and the number of bytes read, or
the replacement character and the number of bytes that it stands for, less one. -/
def readBehind (b : UInt8) (rest : List UInt8) : Char × Nat :=
  match secondBounds? b, rest with
  | some (lo, hi, width), c :: rest =>
    if !(lo ≤ c && c ≤ hi) then (replacement, 0)
    else if width = 2 then (Char.ofNat (b.toNat % 32 * 64 + low c), 1)
    else
      match rest with
      | d :: rest =>
        if !goesOn d then (replacement, 1)
        else if width = 3 then (Char.ofNat ((b.toNat % 16 * 64 + low c) * 64 + low d), 2)
        else
          match rest with
          | e :: _ =>
            if !goesOn e then (replacement, 2)
            else (Char.ofNat (((b.toNat % 8 * 64 + low c) * 64 + low d) * 64 + low e), 3)
          | [] => (replacement, 2)
      | [] => (replacement, 1)
  | _, _ => (replacement, 0)

/-- Reads all bytes; `seen` are the characters so far, backwards. -/
def repairFrom (seen : List Char) : List UInt8 → List Char
  | [] => seen.reverse
  | b :: rest =>
    if b < 0x80 then repairFrom (Char.ofNat b.toNat :: seen) rest
    else
      let (c, further) := readBehind b rest
      repairFrom (c :: seen) (rest.drop further)
termination_by bs => bs.length
decreasing_by
  · simp
  · simp only [List.length_drop, List.length_cons]
    omega

/-- The text that the bytes stand for, if they are UTF-8. -/
def text? (bytes : ByteArray) : Option String := String.fromUTF8? bytes

/-- The text that the bytes stand for, with bad parts replaced. -/
def repaired (bytes : ByteArray) : String :=
  (text? bytes).getD (String.ofList (repairFrom [] bytes.toList))

end CodeAtlas.Utf8
