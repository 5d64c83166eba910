/-
No reader looks past the end of the file.

Every reader gets the lines from the current one on and answers with a number of
further lines. Each of them answers with less than the number of lines it was given,
provided that there is one, so the last line of every extent is a line of the file.
Where a reader carries a count of the lines behind it, the bound is proved for any
such count: the count and the lines that are left add up to the same number at each
step, and that sum is what the answer stays below.

The readers of headers stop after fifty further lines as well.
-/
import CodeAtlas.Doc.Docstring
import CodeAtlas.Scan.Brace
import CodeAtlas.Scan.Indent

set_option autoImplicit false

namespace CodeAtlas

/-! ## Blocks between curly brackets -/

theorem braceExtentFrom_lt (opened : Bool) (balance : Int) (read : Nat) (ls : List Line)
    (h : 0 < read + ls.length) : braceExtentFrom opened balance read ls < read + ls.length := by
  induction ls generalizing opened balance read with
  | nil =>
    -- a block that never closes ends with the last line read
    simp only [braceExtentFrom, List.length_nil] at h ⊢
    split <;> omega
  | cons l ls ih =>
    simp only [braceExtentFrom, List.length_cons]
    split
    · omega
    · split
      · omega
      · have hrest := ih (opened || 0 < (braceCount l).opens) (balance + (braceCount l).delta)
          (read + 1) (by omega)
        omega

/-- A block ends on a line of the file. -/
theorem braceExtent_lt {ls : List Line} (h : ls ≠ []) : braceExtent ls < ls.length := by
  have hpos : 0 < ls.length := List.length_pos_iff.mpr h
  have hlt := braceExtentFrom_lt false 0 0 ls (by omega)
  simpa only [braceExtent, Nat.zero_add] using hlt

/-! ## Blocks by indentation -/

theorem indentExtentFrom_lt (base seen last : Nat) (ls : List Line) (h : last < seen) :
    indentExtentFrom base seen last ls < seen + ls.length := by
  induction ls generalizing seen last with
  | nil => simpa only [indentExtentFrom, List.length_nil, Nat.add_zero] using h
  | cons l ls ih =>
    simp only [indentExtentFrom, List.length_cons]
    split
    · -- a blank line belongs to the block only if a line of the block follows
      have hrest := ih (seen + 1) last (by omega)
      omega
    · split
      · omega
      · have hrest := ih (seen + 1) seen (by omega)
        omega

/-- A block by indentation ends on a line of the file. -/
theorem indentExtent_lt (base : Nat) {ls : List Line} (h : ls ≠ []) :
    indentExtent base ls < ls.length := by
  have hpos : 0 < ls.length := List.length_pos_iff.mpr h
  have hlt := indentExtentFrom_lt base 1 0 (ls.drop 1) (by omega)
  rw [List.length_drop] at hlt
  simp only [indentExtent]
  omega

/-! ## Docstrings -/

namespace Docstring

theorem bodyFrom_lt (quote : List Char) (read : Nat) (ls : List Line) (h : 0 < read) :
    (bodyFrom quote read ls).2 < read + ls.length := by
  induction ls generalizing read with
  | nil =>
    simp only [bodyFrom, List.length_nil]
    omega
  | cons l ls ih =>
    simp only [bodyFrom, List.length_cons]
    split
    · simp only
      omega
    · have hrest := ih (read + 1) (by omega)
      simp only
      omega

/-- A docstring ends on a line of the file, closed or not. -/
theorem further_lt_of_at? {ls : List Line} {d : Docstring} (h : at? ls = some d) :
    d.further < ls.length := by
  cases ls with
  | nil => simp [at?] at h
  | cons l ls =>
    simp only [at?, Option.bind_eq_bind, Option.bind_eq_some_iff] at h
    obtain ⟨⟨quote, rest⟩, -, h⟩ := h
    simp only at h
    split at h
    · cases h
      simp
    · cases h
      have hlt := bodyFrom_lt quote 1 ls Nat.one_pos
      simp only [List.length_cons]
      omega

theorem further_lt_of_within? {base : Nat} {ls : List Line} {d : Docstring}
    (h : within? base ls = some d) : d.further < ls.length := by
  simp only [within?] at h
  -- the blank lines in front are counted back in
  have hlen : (ls.drop (ls.takeWhile Text.isBlank).length).length
      = ls.length - (ls.takeWhile Text.isBlank).length := List.length_drop
  split at h
  · simp at h
  · rename_i l rest hdrop
    split at h
    · simp at h
    · obtain ⟨e, he, rfl⟩ := Option.map_eq_some_iff.mp h
      have hlt := further_lt_of_at? he
      rw [hdrop] at hlen
      simp only at hlt ⊢
      omega

end Docstring

/-! ## Headers over several lines -/

/-- Joining adds to the lines joined before, and takes no more than there are. -/
theorem joinOpen_further (text : List Char) (further : Nat) (ls : List Line) :
    further ≤ (joinOpen text further ls).further ∧
      (joinOpen text further ls).further ≤ further + ls.length ∧
      (joinOpen text further ls).further ≤ max further maxLookahead := by
  induction ls generalizing text further with
  | nil =>
    simp only [joinOpen, List.length_nil]
    omega
  | cons l ls ih =>
    simp only [joinOpen]
    split
    · rename_i hopen
      -- one more line is joined only below the limit
      simp only [Bool.and_eq_true, decide_eq_true_eq] at hopen
      have hrest := ih (text ++ (if text.getLast? = some '(' ∨ (Text.trim l).head? = some ')'
        then [] else [' ']) ++ Text.trim l) (further + 1)
      simp only [List.length_cons, Bool.or_eq_true, decide_eq_true_eq] at hrest ⊢
      omega
    · simp only [List.length_cons]
      omega

/-- A header takes at most fifty further lines. -/
theorem joinSignature_further_le (ls : List Line) :
    (joinSignature ls).further ≤ maxLookahead := by
  have h := (joinOpen_further (Text.trim (ls.headD [])) 0 (ls.drop 1)).2.2
  simpa only [joinSignature, Nat.zero_max] using h

/-- A header ends on a line of the file. -/
theorem joinSignature_further_lt {ls : List Line} (h : ls ≠ []) :
    (joinSignature ls).further < ls.length := by
  have hpos : 0 < ls.length := List.length_pos_iff.mpr h
  have hle := (joinOpen_further (Text.trim (ls.headD [])) 0 (ls.drop 1)).2.1
  rw [List.length_drop] at hle
  simp only [joinSignature]
  omega

namespace Indent

theorem joinBracketsFrom_further (text : List Char) (further : Nat) (ls : List Line) :
    (joinBracketsFrom text further ls).further ≤ further + ls.length ∧
      (joinBracketsFrom text further ls).further ≤ max further maxLookahead := by
  induction ls generalizing text further with
  | nil =>
    simp only [joinBracketsFrom, List.length_nil]
    omega
  | cons l ls ih =>
    simp only [joinBracketsFrom]
    split
    · rename_i hopen
      simp only [Bool.and_eq_true, decide_eq_true_eq] at hopen
      have hrest := ih (text ++ ' ' :: Text.trim l) (further + 1)
      simp only [List.length_cons]
      omega
    · simp only [List.length_cons]
      omega

/-- A statement takes at most fifty further lines. -/
theorem joinBrackets_further_le (ls : List Line) :
    (joinBrackets ls).further ≤ maxLookahead := by
  have h := (joinBracketsFrom_further (firstTrimmed ls) 0 (ls.drop 1)).2
  simpa only [joinBrackets, Nat.zero_max] using h

/-- A statement ends on a line of the file. -/
theorem joinBrackets_further_lt {ls : List Line} (h : ls ≠ []) :
    (joinBrackets ls).further < ls.length := by
  have hpos : 0 < ls.length := List.length_pos_iff.mpr h
  have hle := (joinBracketsFrom_further (firstTrimmed ls) 0 (ls.drop 1)).1
  rw [List.length_drop] at hle
  simp only [joinBrackets]
  omega

/-- A function by indentation ends on a line of the file, at or behind its header. -/
theorem bodyExtent_lt {head : FunctionHead} {ls : List Line} (h : head.further < ls.length) :
    bodyExtent head ls < ls.length := by
  have hne : ls.drop head.further ≠ [] := by
    intro hnil
    have := List.drop_eq_nil_iff.mp hnil
    omega
  have hlt := indentExtent_lt (Text.indentation (ls.headD [])) hne
  rw [List.length_drop] at hlt
  simp only [bodyExtent]
  omega

end Indent

/-! ## Bodies of the brace family -/

namespace Brace

theorem continuation_le (base limit : Nat) (ls : List Line) :
    continuation base limit ls ≤ ls.length := by
  induction ls generalizing limit with
  | nil => simp [continuation]
  | cons l ls ih =>
    cases limit with
    | zero => simp [continuation]
    | succ limit =>
      simp only [continuation, List.length_cons]
      split
      · omega
      · split
        · omega
        · have hrest := ih limit
          omega

/-- A block body reaches at least to the end of its header, and no further than the file. -/
theorem blockExtent_bounds {further : Nat} {ls : List Line} (h : further < ls.length) :
    further ≤ blockExtent further ls ∧ blockExtent further ls < ls.length := by
  have hne : ls ≠ [] := by
    rintro rfl
    simp at h
  have hlt := braceExtent_lt hne
  simp only [blockExtent]
  split <;> omega

theorem expressionExtent_bounds {further : Nat} {ls : List Line} (h : further < ls.length) :
    further ≤ expressionExtent further ls ∧ expressionExtent further ls < ls.length := by
  have hle := continuation_le (Text.indentation (ls.headD [])) maxLookahead
    (ls.drop (further + 1))
  rw [List.length_drop] at hle
  simp only [expressionExtent]
  split <;> omega

/-- A function ends on a line of the file, at or behind its header. -/
theorem bodyExtent_bounds {head : FunctionHead} {ls : List Line}
    (h : head.further < ls.length) :
    head.further ≤ bodyExtent head ls ∧ bodyExtent head ls < ls.length := by
  simp only [bodyExtent]
  cases head.body with
  | block => exact blockExtent_bounds h
  | expression => exact expressionExtent_bounds h

end Brace

end CodeAtlas
