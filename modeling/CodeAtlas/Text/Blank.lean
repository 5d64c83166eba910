/-
Blank characters, trimming and words.

A blank is a character with the Unicode property White_Space. The property has
twenty-five members, a fixed set, so the table is written out. Core's
`Char.isWhitespace` knows four of them.
-/

set_option autoImplicit false

namespace CodeAtlas.Text

/-- The characters with the property White_Space. -/
def isBlankChar (c : Char) : Bool :=
  let n := c.toNat
  (9 ≤ n && n ≤ 13) || n = 0x20 || n = 0x85 || n = 0xA0 || n = 0x1680 ||
    (0x2000 ≤ n && n ≤ 0x200A) || n = 0x2028 || n = 0x2029 || n = 0x202F || n = 0x205F ||
    n = 0x3000

/-- Every character that core counts as white space, the tab and the line breaks
included, is a blank here. -/
theorem isBlankChar_of_isWhitespace {c : Char} (h : c.isWhitespace = true) :
    isBlankChar c = true := by
  simp only [Char.isWhitespace, Bool.or_eq_true, decide_eq_true_eq] at h
  rcases h with ((rfl | rfl) | rfl) | rfl <;> rfl

def trimStart (t : List Char) : List Char := t.dropWhile isBlankChar

/-- The text without the trailing characters that satisfy `p`. -/
def dropEndWhile (p : Char → Bool) (t : List Char) : List Char := (t.reverse.dropWhile p).reverse

def trimEnd (t : List Char) : List Char := dropEndWhile isBlankChar t

def trim (t : List Char) : List Char := trimEnd (trimStart t)

def isBlank (t : List Char) : Bool := t.all isBlankChar

/-! ## Words -/

/-- One step of `words`, from the right: a blank closes the word in front of it,
any other character joins it. The first piece is the word still open. -/
def wordStep (c : Char) (pieces : List Char × List (List Char)) : List Char × List (List Char) :=
  if isBlankChar c then
    ([], if pieces.1.isEmpty then pieces.2 else pieces.1 :: pieces.2)
  else (c :: pieces.1, pieces.2)

/-- The maximal runs of characters that are not blank. -/
def words (t : List Char) : List (List Char) :=
  let (first, rest) := t.foldr wordStep ([], [])
  if first.isEmpty then rest else first :: rest

/-- The words with one space between neighbours. -/
def oneLine (t : List Char) : List Char := [' '].intercalate (words t)

/-! ## Small facts -/

theorem length_trimStart_le (t : List Char) : (trimStart t).length ≤ t.length :=
  (List.dropWhile_suffix isBlankChar).length_le

/-- Trimming leaves nothing exactly of a blank text. -/
theorem trimStart_eq_nil_iff {t : List Char} : trimStart t = [] ↔ isBlank t = true := by
  induction t with
  | nil => simp [trimStart, isBlank]
  | cons c t ih =>
    simp only [trimStart, isBlank, List.dropWhile_cons, List.all_cons] at ih ⊢
    by_cases h : isBlankChar c <;> simp [h, ih]

theorem trim_eq_nil_of_isBlank {t : List Char} (h : isBlank t = true) : trim t = [] := by
  rw [trim, trimStart_eq_nil_iff.mpr h]
  rfl

end CodeAtlas.Text
