/-
Texts with the same words.

Two texts have the same words if one becomes the other where runs of blanks are replaced by
other runs of blanks, none of them empty. They agree on the first character unless it is a
blank, and so does what follows it. Other blanks in front of the lines of a text leave its
words as they are, apart from the blanks at its very beginning (`sameWords_terminated`).
-/
import CodeAtlas.Proofs.Text.Lines
import CodeAtlas.Proofs.Text.Reindent
import CodeAtlas.Proofs.Text.Trim

set_option autoImplicit false

namespace CodeAtlas.Text

/-- One text is the other, with other blanks where blanks are. -/
inductive SameWords : List Char → List Char → Prop where
  | nil : SameWords [] []
  | char {c : Char} {s t : List Char} : isBlankChar c = false → SameWords s t →
      SameWords (c :: s) (c :: t)
  | blank {b c : Char} {s t : List Char} : isBlankChar b = true → isBlankChar c = true →
      SameWords (trimStart s) (trimStart t) → SameWords (b :: s) (c :: t)

variable {c : Char} {s t x : List Char}

theorem trimStart_cons_of_isBlankChar (h : isBlankChar c = true) (t : List Char) :
    trimStart (c :: t) = trimStart t := List.dropWhile_cons_of_pos h

theorem trimStart_cons_of_not_isBlankChar (h : isBlankChar c = false) (t : List Char) :
    trimStart (c :: t) = c :: t := List.dropWhile_cons_of_neg (by rw [h]; exact Bool.false_ne_true)

namespace SameWords

theorem trimStart (h : SameWords s t) : SameWords (Text.trimStart s) (Text.trimStart t) := by
  cases h with
  | nil => exact nil
  | char hc h =>
    rw [trimStart_cons_of_not_isBlankChar hc, trimStart_cons_of_not_isBlankChar hc]
    exact .char hc h
  | blank hb hc h =>
    rwa [trimStart_cons_of_isBlankChar hb, trimStart_cons_of_isBlankChar hc]

theorem append (x : List Char) (h : SameWords s t) : SameWords (x ++ s) (x ++ t) := by
  induction x with
  | nil => exact h
  | cons c x ih =>
    cases hc : isBlankChar c with
    | false => exact .char hc ih
    | true => exact .blank hc hc ih.trimStart

theorem refl (t : List Char) : SameWords t t := by
  have h := append t nil
  rwa [List.append_nil] at h

theorem filter_trimStart (u : List Char) :
    (Text.trimStart u).filter (!isBlankChar ·) = u.filter (!isBlankChar ·) := by
  induction u with
  | nil => rfl
  | cons d u ih =>
    cases hd : isBlankChar d with
    | false => rw [trimStart_cons_of_not_isBlankChar hd]
    | true => rw [trimStart_cons_of_isBlankChar hd, ih, List.filter_cons_of_neg (by simp [hd])]

/-- The characters that are no blanks are the same. -/
theorem filter_eq (h : SameWords s t) :
    s.filter (!isBlankChar ·) = t.filter (!isBlankChar ·) := by
  induction h with
  | nil => rfl
  | char hc _ ih =>
    rw [List.filter_cons_of_pos (by simp [hc]), List.filter_cons_of_pos (by simp [hc]), ih]
  | blank hb hc _ ih =>
    rw [filter_trimStart, filter_trimStart] at ih
    rw [List.filter_cons_of_neg (by simp [hb]), List.filter_cons_of_neg (by simp [hc]), ih]

end SameWords

/-! ## Other blanks in front of lines -/

section

variable {line : Line → Line} (h : ∀ l, trimStart (line l) = trimStart l) (ls : List Line)
include h

/-- Lines with other blanks in front have the same words, apart from the first blanks. -/
theorem sameWords_terminated (hst : trimStart s = trimStart t) :
    SameWords (trimStart (terminated (ls.map line) ++ s)) (trimStart (terminated ls ++ t)) := by
  induction ls with
  | nil =>
    rw [List.map_nil, terminated, List.flatMap_nil, List.nil_append, List.nil_append, hst]
    exact .refl _
  | cons l ls ih =>
    rw [List.map_cons, terminated_cons_append, terminated_cons_append, trimStart_append,
      trimStart_append, h]
    have hfeed : isBlankChar '\n' = true := by decide
    by_cases hblank : (trimStart l).isEmpty = true
    · rw [if_pos hblank, if_pos hblank, trimStart_cons_of_isBlankChar hfeed,
        trimStart_cons_of_isBlankChar hfeed]
      exact ih
    · rw [if_neg hblank, if_neg hblank]
      exact .append _ (.blank hfeed hfeed ih)

theorem has_lower_terminated {w : String} (hw : isCompact w = true)
    (hst : trimStart s = trimStart t) :
    has w (lower (terminated (ls.map line) ++ s)) = has w (lower (terminated ls ++ t)) := by
  obtain ⟨c, rest, heq, -, hbreak⟩ := exists_cons_of_isCompact hw
  have hne : w.toList ≠ [] := heq ▸ List.cons_ne_nil c rest
  have hlower : ∀ t, lower ('\n' :: t) = '\n' :: lower t := fun _ => rfl
  induction ls with
  | nil =>
    rw [List.map_nil, terminated, List.flatMap_nil, List.nil_append, List.nil_append,
      ← has_lower_trimStart hw, hst, has_lower_trimStart hw]
  | cons l ls ih =>
    have hline : has w (lower (line l)) = has w (lower l) := by
      rw [← has_lower_trimStart hw, h, has_lower_trimStart hw]
    rw [has, has] at ih hline
    rw [List.map_cons, terminated_cons_append, terminated_cons_append, lower_append,
      lower_append, hlower, hlower, has, has, occurs_append_cons hbreak hne,
      occurs_append_cons hbreak hne, hline, ih]

end

end CodeAtlas.Text
