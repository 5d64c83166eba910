/-
Lines that say nothing about nesting.

A scan passes a blank line and a line comment without counting their brackets. Nothing
is lost, since they have none: a blank is neither a bracket nor the begin of a literal, and
the count of a line ends where a comment begins.
-/
import CodeAtlas.Nesting.Balance
import CodeAtlas.Text.Basic
import CodeAtlas.Text.Word
import CodeAtlas.Proofs.Text.Trim
import Mathlib.Data.List.TakeWhile

set_option autoImplicit false

namespace CodeAtlas

/-- Neither a bracket that counts, nor the begin of a literal or of a comment. -/
def IsNeutral (c : Char) : Prop :=
  Quoting.isQuote c = false ∧ c ≠ '/' ∧ c ≠ '\x7b' ∧ c ≠ '\x7d'

instance (c : Char) : Decidable (IsNeutral c) := inferInstanceAs (Decidable (_ ∧ _))

section

variable {c : Char} {u t : List Char} {st : Quoting}

theorem isNeutral_of_class {p : Char → Bool}
    (hp : ∀ d ∈ ['"', '\'', '\x60', '/', '\x7b', '\x7d'], p d = false) (h : p c = true) :
    IsNeutral c := by
  have hne : ∀ d ∈ ['"', '\'', '\x60', '/', '\x7b', '\x7d'], c ≠ d := by
    rintro d hd rfl
    rw [hp c hd] at h
    cases h
  refine ⟨?_, hne '/' (by decide), hne '\x7b' (by decide), hne '\x7d' (by decide)⟩
  simp [Quoting.isQuote, hne '"' (by decide), hne '\'' (by decide), hne '\x60' (by decide)]

theorem isNeutral_of_isBlankChar (h : Text.isBlankChar c = true) : IsNeutral c :=
  isNeutral_of_class (by decide) h

theorem isNeutral_of_isBlank (h : Text.isBlank t = true) : ∀ c ∈ t, IsNeutral c := fun _ hc =>
  isNeutral_of_isBlankChar (Text.isBlankChar_of_mem h hc)

theorem isNeutral_of_isNameChar (h : Text.isNameChar c = true) : IsNeutral c :=
  isNeutral_of_class (by decide) h

theorem braceCount_cons_of_neutral (h : IsNeutral c) (t : List Char) :
    braceCount (c :: t) = braceCount t := by
  obtain ⟨hquote, hslash, hopen, hclose⟩ := h
  rw [braceCount, braceCountFrom, Quoting.next_code_of_not_isQuote hquote, BraceCount.add,
    if_neg hopen, if_neg hclose, braceCount]
  -- what is left to exclude is that a comment begins here
  intro rest hcomment _
  exact absurd hcomment hslash

theorem braceCount_append_of_neutral (h : ∀ c ∈ u, IsNeutral c) (t : List Char) :
    braceCount (u ++ t) = braceCount t := by
  induction u with
  | nil => rfl
  | cons c u ih =>
    obtain ⟨hc, hmore⟩ := List.forall_mem_cons.mp h
    rw [List.cons_append, braceCount_cons_of_neutral hc, ih hmore]

/-- Inside a literal the count goes on behind one more character. -/
theorem braceCountFrom_cons (h : st ≠ .code) (c : Char) (t : List Char) :
    braceCountFrom st (c :: t) = braceCountFrom (st.next c) t := by
  cases st with
  | code => exact absurd rfl h
  | literal q => simp [braceCountFrom]
  | escape q => simp [braceCountFrom]

/-- Neutral characters count nowhere. -/
theorem braceCountFrom_of_neutral (h : ∀ c ∈ t, IsNeutral c) (st : Quoting) :
    braceCountFrom st t = ⟨0, 0⟩ := by
  induction t generalizing st with
  | nil => cases st <;> rfl
  | cons c t ih =>
    obtain ⟨hc, hmore⟩ := List.forall_mem_cons.mp h
    by_cases hcode : st = .code
    · have hcount := braceCount_cons_of_neutral hc t
      rw [hcode]
      exact hcount.trans (ih hmore .code)
    · rw [braceCountFrom_cons hcode, ih hmore]

/-- Nothing counts in a literal, nor behind the next quote if what stands there counts nothing
itself. A backslash may take that quote away, and then the literal goes on to the end. -/
theorem braceCountFrom_inside {q : Char} {m b : List Char} (hm : q ∉ m)
    (hb : ∀ c ∈ b, IsNeutral c) {st : Quoting} (hst : st = .literal q ∨ st = .escape q) :
    braceCountFrom st (m ++ q :: b) = ⟨0, 0⟩ := by
  have hliteral : ∀ (c : Char) (t : List Char),
      braceCountFrom (.literal q) (c :: t) = braceCountFrom (Quoting.next (.literal q) c) t :=
    braceCountFrom_cons (by simp)
  have hescape : ∀ (c : Char) (t : List Char),
      braceCountFrom (.escape q) (c :: t) = braceCountFrom (.literal q) t :=
    braceCountFrom_cons (by simp)
  induction m generalizing st with
  | nil =>
    rcases hst with rfl | rfl
    · rw [List.nil_append, hliteral, braceCountFrom_of_neutral hb]
    · rw [List.nil_append, hescape, braceCountFrom_of_neutral hb]
  | cons c m ih =>
    obtain ⟨hc, hm⟩ := not_or.mp (mt List.mem_cons.mpr hm)
    rcases hst with rfl | rfl
    · rw [List.cons_append, hliteral]
      refine ih hm ?_
      by_cases hback : c = '\\'
      · exact .inr (by simp [Quoting.next, hback])
      · exact .inl (by simp [Quoting.next, hback, Ne.symm hc])
    · rw [List.cons_append, hescape]
      exact ih hm (.inl rfl)

/-- Nothing counts between two quotes, nor in what follows, also if a backslash takes away the
second quote. -/
theorem braceCount_literal {q : Char} {m b : List Char} (hq : Quoting.isQuote q = true)
    (hm : q ∉ m) (hb : ∀ c ∈ b, IsNeutral c) : braceCount (q :: (m ++ q :: b)) = ⟨0, 0⟩ := by
  have hne : ∀ d, Quoting.isQuote d = false → q ≠ d := by
    rintro d hd rfl
    rw [hq] at hd
    cases hd
  have hopen : Quoting.next .code q = .literal q := if_pos hq
  rw [braceCount, braceCountFrom, hopen, braceCountFrom_inside hm hb (.inl rfl), BraceCount.add,
    if_neg (hne '\x7b' rfl), if_neg (hne '\x7d' rfl)]
  -- a quote does not begin a comment
  intro rest hcomment _
  exact absurd hcomment (hne '/' rfl)

end

theorem braceCount_trimStart (l : List Char) : braceCount (Text.trimStart l) = braceCount l := by
  induction l with
  | nil => rfl
  | cons c l ih =>
    rw [Text.trimStart, List.dropWhile_cons]
    split
    · rename_i hc
      rw [braceCount_cons_of_neutral (isNeutral_of_isBlankChar hc)]
      exact ih
    · rfl

theorem trim_prefix_trimStart (l : List Char) : Text.trim l <+: Text.trimStart l := by
  -- blanks are dropped from the end of the line by reversing it twice
  have hsuffix := List.dropWhile_suffix Text.isBlankChar (l := (Text.trimStart l).reverse)
  have hprefix := List.reverse_prefix.mpr hsuffix
  rwa [List.reverse_reverse] at hprefix

/-- The blanks in front of a line do not count, and those behind it come after all else. -/
theorem exists_braceCount_trim (l : List Char) :
    ∃ g, Text.isBlank g = true ∧ braceCount l = braceCount (Text.trim l ++ g) := by
  obtain ⟨g, g', hg, hg', hsplit⟩ := Text.exists_trim l
  refine ⟨g', hg', ?_⟩
  conv_lhs => rw [hsplit]
  exact braceCount_append_of_neutral (isNeutral_of_isBlank hg) _

/-- A line without quotes, slashes and curly brackets has none that count. -/
theorem braceDelta_of_neutral {l : List Char} (h : ∀ c ∈ Text.trim l, IsNeutral c) :
    braceDelta l = 0 := by
  obtain ⟨g, hg, hcount⟩ := exists_braceCount_trim l
  have hall : ∀ c ∈ Text.trim l ++ g, IsNeutral c :=
    List.forall_mem_append.mpr ⟨h, isNeutral_of_isBlank hg⟩
  have hzero : braceCount (Text.trim l ++ g) = ⟨0, 0⟩ := braceCountFrom_of_neutral hall .code
  rw [braceDelta, hcount, hzero]
  rfl

/-- A blank line has no brackets. -/
theorem braceDelta_of_trim_eq_nil {l : List Char} (h : Text.trim l = []) : braceDelta l = 0 :=
  braceDelta_of_neutral (by simp [h])

/-- A line comment has no brackets that count. -/
theorem braceDelta_of_starts_comment {l : List Char} (h : Text.starts "//" (Text.trim l) = true) :
    braceDelta l = 0 := by
  obtain ⟨rest, hrest⟩ := (List.isPrefixOf_iff_prefix.mp h).trans (trim_prefix_trimStart l)
  rw [braceDelta, ← braceCount_trimStart, ← hrest]
  -- the count ends at once where the line begins with two slashes
  rfl

end CodeAtlas
