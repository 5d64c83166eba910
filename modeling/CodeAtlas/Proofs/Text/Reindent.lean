/-
Lines with other blanks in front.

`Reindents line width` says of a change of lines that it leaves everything behind the
blanks in front of a line as it is, and that of two lines the one that stood deeper still
does. A scan looks at nothing else of a line: it trims it, counts its brackets, asks what
it ends in, looks for words, and compares indentations. Each of these questions is
answered here once.

A word is looked for in lines that are not trimmed, and in several lines at once. It has
to begin with no blank and to hold no line feed (`isCompact`); all words of the vocabulary
are of that form.
-/
import CodeAtlas.Extent
import CodeAtlas.Proofs.Nesting.Quiet
import CodeAtlas.Text.Case
import Mathlib.Order.Monotone.Basic

set_option autoImplicit false

namespace CodeAtlas

/-- The change keeps what stands behind the blanks in front of a line, and widens the
blanks by `width`, deeper lines staying deeper. -/
structure Reindents (line : Line → Line) (width : Nat → Nat) : Prop where
  trimStart : ∀ l, Text.trimStart (line l) = Text.trimStart l
  indentation : ∀ l, Text.indentation (line l) = width (Text.indentation l)
  strictMono : StrictMono width

theorem Reindents.refl : Reindents id id := ⟨fun _ => rfl, fun _ => rfl, strictMono_id⟩

/-! ## Blanks in front of a text -/

namespace Text

variable {w t front : List Char}

theorem takeWhile_append_trimStart (t : List Char) : t.takeWhile isBlankChar ++ trimStart t = t :=
  List.takeWhile_append_dropWhile

theorem isBlank_takeWhile (t : List Char) : isBlank (t.takeWhile isBlankChar) = true :=
  List.all_takeWhile

/-- The last character that is no blank does not depend on the blanks in front. -/
theorem getLast?_trimEnd_trimStart (t : List Char) :
    (trimEnd (trimStart t)).getLast? = (trimEnd t).getLast? := by
  have hfront : (t.takeWhile isBlankChar).reverse.dropWhile isBlankChar = [] := by
    refine List.dropWhile_eq_nil_iff.mpr fun c hc => ?_
    exact List.all_eq_true.mp (isBlank_takeWhile t) c (List.mem_reverse.mp hc)
  have hreverse := congrArg List.reverse (takeWhile_append_trimStart t)
  rw [List.reverse_append] at hreverse
  simp only [trimEnd, dropEndWhile, List.getLast?_reverse]
  rw [← hreverse, List.dropWhile_append, hfront]
  split
  · rename_i hnil
    rw [List.isEmpty_iff.mp hnil]
  · rename_i hne
    obtain ⟨c, rest, heq⟩ := List.exists_cons_of_ne_nil (mt List.isEmpty_iff.mpr hne)
    rw [heq]
    rfl

/-! ## Words -/

/-- Does the word begin with no blank and stay on one line? -/
def isCompact (w : String) : Bool :=
  w.toList.head?.any (!isBlankChar ·) && !w.toList.contains '\n'

theorem exists_cons_of_isCompact {w : String} (h : isCompact w = true) :
    ∃ c rest, w.toList = c :: rest ∧ isBlankChar c = false ∧ '\n' ∉ w.toList := by
  simp only [isCompact, Bool.and_eq_true, Bool.not_eq_true', List.contains_eq_mem,
    decide_eq_false_iff_not] at h
  obtain ⟨hhead, hbreak⟩ := h
  cases hw : w.toList with
  | nil => simp [hw] at hhead
  | cons c rest =>
    rw [hw] at hhead hbreak
    exact ⟨c, rest, rfl, by simpa using hhead, hbreak⟩

theorem occurs_append_of_isBlank {c : Char} (hc : isBlankChar c = false)
    (hfront : isBlank front = true) (t : List Char) :
    occurs (c :: w) (front ++ t) = occurs (c :: w) t := by
  induction front with
  | nil => rfl
  | cons d front ih =>
    simp only [isBlank, List.all_cons, Bool.and_eq_true] at hfront
    have hne : (c == d) = false := by
      refine beq_false_of_ne ?_
      rintro rfl
      rw [hc] at hfront
      exact Bool.false_ne_true hfront.1
    rw [List.cons_append, occurs, List.isPrefixOf, hne, Bool.false_and, Bool.false_or]
    exact ih hfront.2

theorem lowerChar_of_isBlankChar {c : Char} (h : isBlankChar c = true) : lowerChar c = [c] := by
  have hne : ∀ d, isBlankChar d = false → c ≠ d := by
    rintro d hd rfl
    rw [h] at hd
    cases hd
  -- no blank of the table lies among the capital letters
  have hcapital : ¬(c.val ≥ 'A'.val ∧ c.val ≤ 'Z'.val) := by
    rintro ⟨hlow, hhigh⟩
    have hlow : 65 ≤ c.toNat := UInt32.le_iff_toNat_le.mp hlow
    have hhigh : c.toNat ≤ 90 := UInt32.le_iff_toNat_le.mp hhigh
    simp only [isBlankChar, Bool.or_eq_true, Bool.and_eq_true, decide_eq_true_eq] at h
    omega
  have hlower : c.toLower = c := dif_neg hcapital
  rw [lowerChar, if_neg (hne _ (by decide)), if_neg (hne _ (by decide)), hlower]

theorem lower_of_isBlank (h : isBlank front = true) : lower front = front := by
  induction front with
  | nil => rfl
  | cons c front ih =>
    simp only [isBlank, List.all_cons, Bool.and_eq_true] at h
    rw [lower, List.flatMap_cons, lowerChar_of_isBlankChar h.1]
    exact congrArg (c :: ·) (ih h.2)

theorem has_lower_trimStart {w : String} (hw : isCompact w = true) (t : List Char) :
    has w (lower (trimStart t)) = has w (lower t) := by
  obtain ⟨c, rest, heq, hc, -⟩ := exists_cons_of_isCompact hw
  have hlower : lower t = t.takeWhile isBlankChar ++ lower (trimStart t) := by
    rw [← lower_of_isBlank (isBlank_takeWhile t), ← lower_append, takeWhile_append_trimStart]
  rw [hlower, has, has, heq, occurs_append_of_isBlank hc (isBlank_takeWhile t)]

/-- A beginning without a character ends in front of the first one. -/
theorem isPrefixOf_append_cons {b : Char} (hw : b ∉ w) (s t : List Char) :
    w.isPrefixOf (s ++ b :: t) = w.isPrefixOf s := by
  induction w generalizing s with
  | nil => simp
  | cons c w ih =>
    obtain ⟨hc, hw⟩ := not_or.mp (mt List.mem_cons.mpr hw)
    cases s with
    | nil => simp [List.isPrefixOf, Ne.symm hc]
    | cons d s => rw [List.cons_append, List.isPrefixOf, List.isPrefixOf, ih hw]

/-- A word without a character, such as a line feed, occurs in front of one or behind it. -/
theorem occurs_append_cons {b : Char} (hw : b ∉ w) (hne : w ≠ []) (s t : List Char) :
    occurs w (s ++ b :: t) = (occurs w s || occurs w t) := by
  obtain ⟨c, rest, rfl⟩ := List.exists_cons_of_ne_nil hne
  induction s with
  | nil =>
    have hc : c ≠ b := by
      rintro rfl
      exact hw List.mem_cons_self
    simp [occurs, hc]
  | cons d s ih =>
    have hstart := isPrefixOf_append_cons hw (d :: s) t
    rw [List.cons_append] at hstart
    rw [List.cons_append, occurs, hstart, ih, occurs, Bool.or_assoc]

theorem has_lower_intercalate {w : String} (hw : isCompact w = true) (ls : List Line) :
    has w (lower (['\n'].intercalate ls)) = ls.any fun l => has w (lower l) := by
  obtain ⟨c, rest, heq, -, hbreak⟩ := exists_cons_of_isCompact hw
  have hne : w.toList ≠ [] := heq ▸ List.cons_ne_nil c rest
  induction ls with
  | nil =>
    rw [List.intercalate_nil, has, heq]
    rfl
  | cons l ls ih =>
    cases ls with
    | nil => rw [List.intercalate_singleton, List.any_cons, List.any_nil, Bool.or_false]
    | cons m ls =>
      have hlower : ∀ t, lower ('\n' :: t) = '\n' :: lower t := fun _ => rfl
      rw [List.intercalate_cons_cons, List.append_assoc, List.singleton_append, lower_append,
        hlower, has, occurs_append_cons hbreak hne, List.any_cons]
      exact congrArg (has w (lower l) || ·) ih

end Text

/-! ## What does not depend on the blanks in front -/

namespace Reindents

variable {line : Line → Line} {width : Nat → Nat}

theorem trim (h : Reindents line width) (l : Line) : Text.trim (line l) = Text.trim l := by
  rw [Text.trim, Text.trim, h.trimStart]

theorem isBlank (h : Reindents line width) (l : Line) :
    Text.isBlank (line l) = Text.isBlank l := by
  rw [Bool.eq_iff_iff, ← Text.trimStart_eq_nil_iff, ← Text.trimStart_eq_nil_iff, h.trimStart]

theorem endsIn (h : Reindents line width) (c : Char) (l : Line) :
    CodeAtlas.endsIn c (line l) = CodeAtlas.endsIn c l := by
  rw [CodeAtlas.endsIn, CodeAtlas.endsIn, ← Text.getLast?_trimEnd_trimStart, h.trimStart,
    Text.getLast?_trimEnd_trimStart]

theorem braceCount (h : Reindents line width) (l : Line) :
    CodeAtlas.braceCount (line l) = CodeAtlas.braceCount l := by
  rw [← braceCount_trimStart, h.trimStart, braceCount_trimStart]

theorem braceDelta (h : Reindents line width) (l : Line) :
    CodeAtlas.braceDelta (line l) = CodeAtlas.braceDelta l := by
  rw [CodeAtlas.braceDelta, CodeAtlas.braceDelta, h.braceCount]

theorem has_lower (h : Reindents line width) {w : String} (hw : Text.isCompact w = true)
    (l : Line) : Text.has w (Text.lower (line l)) = Text.has w (Text.lower l) := by
  rw [← Text.has_lower_trimStart hw, h.trimStart, Text.has_lower_trimStart hw]

/-- A word occurs in lines exactly if it occurs in the changed ones. -/
theorem has_lower_intercalate (h : Reindents line width) {w : String}
    (hw : Text.isCompact w = true) (ls : List Line) :
    Text.has w (Text.lower (['\n'].intercalate (ls.map line))) =
      Text.has w (Text.lower (['\n'].intercalate ls)) := by
  rw [Text.has_lower_intercalate hw, Text.has_lower_intercalate hw, List.any_map]
  exact congrArg ls.any (funext (h.has_lower hw))

end Reindents

end CodeAtlas
