/-
Trimming a text in pieces.

A text is what trimming leaves, with blanks on both sides (`exists_trim`). Blanks at either end
of a text are trimmed with it, and a character that is no blank keeps everything on its far
side: so a text that is given in pieces is trimmed in its outer pieces.
-/
import CodeAtlas.Text.Basic
import Mathlib.Data.List.Basic

set_option autoImplicit false

namespace CodeAtlas.Text

/-! ## Characters of a text

What holds of all characters of a text is decided along the text, not by trying every character
there is. -/

instance decidableForallMem {p : Char → Prop} [DecidablePred p] {t : List Char} :
    Decidable (∀ c ∈ t, p c) :=
  List.decidableBAll p t

instance decidableForallMemOption {p : Char → Prop} [DecidablePred p] {o : Option Char} :
    Decidable (∀ c ∈ o, p c) :=
  Option.decidableForallMem o

/-! ## Trimming -/

variable {c : Char} {s t g : List Char}

theorem isBlank_append : isBlank (s ++ t) = (isBlank s && isBlank t) := List.all_append

theorem isBlankChar_of_mem (h : isBlank t = true) (hc : c ∈ t) : isBlankChar c = true :=
  List.all_eq_true.mp h c hc

theorem notMem_of_isBlank (hg : isBlank g = true) (hc : isBlankChar c = false) : c ∉ g := by
  intro hmem
  rw [isBlankChar_of_mem hg hmem] at hc
  cases hc

theorem trimStart_append (s t : List Char) :
    trimStart (s ++ t) = if (trimStart s).isEmpty then trimStart t else trimStart s ++ t :=
  List.dropWhile_append

theorem trimStart_append_of_isBlank (hg : isBlank g = true) (t : List Char) :
    trimStart (g ++ t) = trimStart t :=
  List.dropWhile_append_of_pos (List.all_eq_true.mp hg)

theorem trimEnd_append_of_isBlank (hg : isBlank g = true) (t : List Char) :
    trimEnd (t ++ g) = trimEnd t := by
  have hrev : ∀ c ∈ g.reverse, isBlankChar c = true := by
    intro c hc
    exact isBlankChar_of_mem hg (List.mem_reverse.mp hc)
  rw [trimEnd, dropEndWhile, List.reverse_append, List.dropWhile_append_of_pos hrev]
  rfl

theorem dropWhile_append_cons (hc : isBlankChar c = false) (s t : List Char) :
    (s ++ c :: t).dropWhile isBlankChar = s.dropWhile isBlankChar ++ c :: t := by
  have hstop : (c :: t).dropWhile isBlankChar = c :: t :=
    List.dropWhile_cons_of_neg (Bool.eq_false_iff.mp hc)
  rw [List.dropWhile_append, hstop]
  split
  · rename_i hempty
    rw [List.isEmpty_iff.mp hempty, List.nil_append]
  · rfl

theorem trimStart_append_cons (hc : isBlankChar c = false) (s t : List Char) :
    trimStart (s ++ c :: t) = trimStart s ++ c :: t := dropWhile_append_cons hc s t

theorem trimEnd_append_cons (hc : isBlankChar c = false) (s t : List Char) :
    trimEnd (s ++ c :: t) = s ++ c :: trimEnd t := by
  have hrev : (s ++ c :: t).reverse = t.reverse ++ c :: s.reverse := by simp
  rw [trimEnd, dropEndWhile, hrev, dropWhile_append_cons hc, List.reverse_append]
  simp [trimEnd, dropEndWhile]

theorem head?_trimStart_any (t : List Char) : (trimStart t).head?.any isBlankChar = false := by
  have hhead := List.head?_dropWhile_not isBlankChar t
  rw [trimStart]
  cases h : (t.dropWhile isBlankChar).head? with
  | none => rfl
  | some d =>
    rw [h] at hhead
    exact hhead

/-- The first character behind the blanks is in front of the given one, or this one. -/
theorem head?_trimStart_append (hc : isBlankChar c = false) (s t : List Char) :
    (trimStart (s ++ c :: t)).head? = some ((trimStart s).head?.getD c) := by
  rw [trimStart_append_cons hc]
  cases trimStart s <;> rfl

theorem head?_trim (t : List Char) : (trim t).head? = (trimStart t).head? := by
  rw [trim]
  cases h : trimStart t with
  | nil => rfl
  | cons c s =>
    have hc := head?_trimStart_any t
    rw [h] at hc
    have hkeeps := trimEnd_append_cons hc [] s
    rw [List.nil_append] at hkeeps
    rw [hkeeps]
    rfl

theorem dropEndWhile_subset (p : Char → Bool) (t : List Char) : dropEndWhile p t ⊆ t := by
  intro c hc
  rw [dropEndWhile, List.mem_reverse] at hc
  exact List.mem_reverse.mp ((List.dropWhile_suffix p).subset hc)

theorem dropEndWhile_of_not_mem (h : c ∉ t) : dropEndWhile (· = c) t = t := by
  rw [dropEndWhile]
  rcases List.eq_nil_or_concat t with rfl | ⟨u, d, rfl⟩
  · rfl
  · have hne : d ≠ c := by
      rintro rfl
      exact h (by simp)
    rw [List.concat_eq_append, List.reverse_append]
    simp [hne]

theorem dropEndWhile_concat (h : c ∉ t) : dropEndWhile (· = c) (t ++ [c]) = t := by
  have hrest := dropEndWhile_of_not_mem h
  rw [dropEndWhile] at hrest ⊢
  rw [List.reverse_append, List.reverse_singleton, List.singleton_append, List.dropWhile_cons,
    if_pos (decide_eq_true rfl), hrest]

/-- Trimming at the end takes blanks. -/
theorem exists_trimEnd (t : List Char) : ∃ g, isBlank g = true ∧ t = trimEnd t ++ g := by
  refine ⟨(t.reverse.takeWhile isBlankChar).reverse, ?_, ?_⟩
  · rw [isBlank, List.all_reverse]
    exact List.all_takeWhile
  · rw [trimEnd, dropEndWhile, ← List.reverse_append, List.takeWhile_append_dropWhile,
      List.reverse_reverse]

/-- A text is what trimming leaves, between blanks. -/
theorem exists_trim (t : List Char) :
    ∃ g g', isBlank g = true ∧ isBlank g' = true ∧ t = g ++ (trim t ++ g') := by
  obtain ⟨g', hblank, hend⟩ := exists_trimEnd (trimStart t)
  have hstart : t.takeWhile isBlankChar ++ trimStart t = t := List.takeWhile_append_dropWhile
  refine ⟨t.takeWhile isBlankChar, g', List.all_takeWhile, hblank, ?_⟩
  rw [trim, ← hend, hstart]

theorem isInfix_trim (t : List Char) : trim t <:+: t := by
  obtain ⟨g, g', -, -, hsplit⟩ := exists_trim t
  exact ⟨g, g', by rw [List.append_assoc, ← hsplit]⟩

theorem isBlank_of_trim_eq_nil (h : trim t = []) : isBlank t = true := by
  obtain ⟨g, g', hg, hg', hsplit⟩ := exists_trim t
  rw [hsplit, h, List.nil_append, isBlank_append, hg, hg']
  rfl

theorem trim_eq_self (hfirst : t.head?.any isBlankChar = false)
    (hlast : t.getLast?.any isBlankChar = false) : trim t = t := by
  have hdrop : ∀ u : List Char, u.head?.any isBlankChar = false → u.dropWhile isBlankChar = u := by
    intro u hu
    cases u with
    | nil => rfl
    | cons c u => exact List.dropWhile_cons_of_neg (Bool.eq_false_iff.mp hu)
  rw [trim, trimStart, hdrop t hfirst, trimEnd, dropEndWhile,
    hdrop t.reverse (by rwa [List.head?_reverse]), List.reverse_reverse]

theorem trim_eq_self_of_forall (h : ∀ c ∈ t, isBlankChar c = false) : trim t = t := by
  have hany : ∀ o : Option Char, (∀ c ∈ o, c ∈ t) → o.any isBlankChar = false := by
    intro o ho
    cases o with
    | none => rfl
    | some c => exact h c (ho c rfl)
  exact trim_eq_self (hany _ fun _ => List.mem_of_mem_head?)
    (hany _ fun _ => List.mem_of_mem_getLast?)

theorem trimEnd_trimEnd (t : List Char) : trimEnd (trimEnd t) = trimEnd t := by
  obtain ⟨g, hg, hsplit⟩ := exists_trimEnd t
  conv_rhs => rw [hsplit, trimEnd_append_of_isBlank hg]

/-- A text that is trimmed at its end ends in no blanks. -/
theorem eq_nil_of_trimEnd_append (h : trimEnd (s ++ t) = s ++ t) (ht : isBlank t = true) :
    t = [] := by
  rw [trimEnd_append_of_isBlank ht] at h
  obtain ⟨g, -, hs⟩ := exists_trimEnd s
  rw [h, List.append_assoc] at hs
  exact (List.append_eq_nil_iff.mp (List.self_eq_append_right.mp hs)).1

theorem trimEnd_trim (t : List Char) : trimEnd (trim t) = trim t := trimEnd_trimEnd _

theorem trim_append_of_isBlank (hg : isBlank g = true) (t : List Char) :
    trim (g ++ t) = trim t := by
  rw [trim, trimStart_append_of_isBlank hg, trim]

theorem trim_append_of_isBlank_right (hg : isBlank g = true) (t : List Char) :
    trim (t ++ g) = trim t := by
  by_cases hnil : trim t = []
  · have hall : isBlank (t ++ g) = true := by
      rw [isBlank_append, isBlank_of_trim_eq_nil hnil, hg]
      rfl
    rw [trim_eq_nil_of_isBlank hall, hnil]
  · -- what trimming leaves begins with a character that is no blank
    have hstart : trimStart t ≠ [] := by
      intro hempty
      rw [trim, hempty] at hnil
      exact hnil rfl
    have happend : trimStart (t ++ g) = trimStart t ++ g := by
      rw [trimStart, List.dropWhile_append, if_neg]
      · rfl
      · rwa [List.isEmpty_iff]
    rw [trim, happend, trimEnd_append_of_isBlank hg, trim]

theorem trim_trim (t : List Char) : trim (trim t) = trim t := by
  obtain ⟨g, g', hg, hg', hsplit⟩ := exists_trim t
  conv_rhs => rw [hsplit, trim_append_of_isBlank hg, trim_append_of_isBlank_right hg']

/-- What trimming leaves begins with the first character that is no blank. -/
theorem exists_cons_of_trim_ne_nil (h : trim t ≠ []) : ∃ g c s, isBlank g = true ∧
    isBlankChar c = false ∧ t = g ++ c :: s ∧ trim t = c :: trimEnd s := by
  have hsplit : t.takeWhile isBlankChar ++ t.dropWhile isBlankChar = t :=
    List.takeWhile_append_dropWhile
  cases hdrop : t.dropWhile isBlankChar with
  | nil =>
    rw [trim, trimStart, hdrop] at h
    exact absurd rfl h
  | cons c s =>
    have hc : isBlankChar c = false := by
      have hhead := List.head?_dropWhile_not isBlankChar t
      rw [hdrop] at hhead
      simpa using hhead
    refine ⟨_, c, s, List.all_takeWhile, hc, by rw [← hdrop, hsplit], ?_⟩
    rw [trim, trimStart, hdrop]
    exact trimEnd_append_cons hc [] s

/-- A trimmed text keeps what follows it from being trimmed in front. -/
theorem trim_append_cons (ht : trim t = t) (hc : isBlankChar c = false) (s : List Char) :
    trim (t ++ c :: s) = t ++ c :: trimEnd s := by
  have hstart : trimStart (t ++ c :: s) = t ++ c :: s := by
    by_cases hnil : t = []
    · rw [hnil]
      exact trimStart_append_cons hc [] s
    · obtain ⟨-, d, u, -, hd, -, htrim⟩ := exists_cons_of_trim_ne_nil (ht.symm ▸ hnil)
      rw [← ht, htrim]
      exact trimStart_append_cons hd [] _
  rw [trim, hstart, trimEnd_append_cons hc]

/-- Trimming keeps a text between its first character, if that is no blank, and a trimmed text. -/
theorem trim_append_eq_self (hc : isBlankChar c = false) (s : List Char) (ht : trim t = t)
    (hne : t ≠ []) : trim (c :: s ++ t) = c :: s ++ t := by
  obtain ⟨-, d, u, -, hd, -, htrim⟩ := exists_cons_of_trim_ne_nil (ht.symm ▸ hne)
  have hstart : trimStart (c :: s ++ d :: trimEnd u) = c :: s ++ d :: trimEnd u :=
    trimStart_append_cons hc [] _
  rw [← ht, htrim, trim, hstart, trimEnd_append_cons hd, trimEnd_trimEnd]

/-- Trimming at the end leaves the blanks in front. -/
theorem exists_trimEnd_eq (t : List Char) : ∃ g, isBlank g = true ∧ trimEnd t = g ++ trim t := by
  obtain ⟨g, g', hg, hg', hsplit⟩ := exists_trim t
  have hend : trimEnd t = trimEnd (g ++ trim t) := by
    conv_lhs => rw [hsplit, ← List.append_assoc, trimEnd_append_of_isBlank hg']
  by_cases hnil : trim t = []
  · have hblank := trimEnd_append_of_isBlank hg []
    rw [List.nil_append] at hblank
    rw [hnil, List.append_nil, hblank] at hend
    exact ⟨[], rfl, by rw [hend, hnil]; rfl⟩
  · obtain ⟨u, c, s, -, hc, -, htrim⟩ := exists_cons_of_trim_ne_nil hnil
    rw [htrim, trimEnd_append_cons hc, trimEnd_trimEnd, ← htrim] at hend
    exact ⟨g, hg, hend⟩

/-- A character of a text is a blank or is left by trimming. -/
theorem mem_trim_of_mem (hc : c ∈ t) : isBlankChar c = true ∨ c ∈ trim t := by
  obtain ⟨g, g', hg, hg', hsplit⟩ := exists_trim t
  rw [hsplit] at hc
  rcases List.mem_append.mp hc with hfront | hmore
  · exact .inl (isBlankChar_of_mem hg hfront)
  · rcases List.mem_append.mp hmore with hmid | hback
    · exact .inr hmid
    · exact .inl (isBlankChar_of_mem hg' hback)

theorem trim_ne_nil_of_mem (hc : c ∈ t) (hblack : isBlankChar c = false) : trim t ≠ [] := by
  intro hnil
  rcases mem_trim_of_mem hc with hblank | hmem
  · rw [hblack] at hblank
    cases hblank
  · rw [hnil] at hmem
    cases hmem

theorem mem_of_mem_trim (hc : c ∈ trim t) : c ∈ t := (isInfix_trim t).subset hc

/-! ## Texts that are put together -/

theorem head?_of_starts {lead : String} (h : starts lead t = true)
    (hlead : lead.toList.head? = some c) : t.head? = some c := by
  obtain ⟨rest, rfl⟩ := List.isPrefixOf_iff_prefix.mp h
  rw [List.head?_append, hlead]
  rfl

theorem not_starts_of_head? (lead : String) {d : Char} (h : t.head? = some d)
    (hlead : lead.toList.head? = some c) (hne : c ≠ d) : starts lead t = false := by
  refine Bool.eq_false_iff.mpr fun hstarts => hne ?_
  rw [head?_of_starts hstarts hlead] at h
  exact Option.some.inj h

/-- A character is one of a text, or of what stands between two of them. -/
theorem mem_of_mem_intercalate {ts : List (List Char)} (hc : c ∈ s.intercalate ts) :
    c ∈ s ∨ ∃ t ∈ ts, c ∈ t := by
  induction ts with
  | nil => cases hc
  | cons t ts ih =>
    by_cases hnil : ts = []
    · rw [hnil, List.intercalate_singleton] at hc
      exact .inr ⟨t, List.mem_cons_self, hc⟩
    · rw [List.intercalate_cons_of_ne_nil hnil] at hc
      simp only [List.mem_append] at hc
      rcases hc with (hc | hc) | hc
      · exact .inr ⟨t, List.mem_cons_self, hc⟩
      · exact .inl hc
      · refine (ih hc).imp_right ?_
        rintro ⟨u, hu, hmem⟩
        exact ⟨u, List.mem_cons_of_mem t hu, hmem⟩

theorem mem_intercalate {ts : List (List Char)} (ht : t ∈ ts) (hc : c ∈ t) :
    c ∈ s.intercalate ts := by
  induction ts with
  | nil => cases ht
  | cons u ts ih =>
    by_cases hnil : ts = []
    · rw [hnil, List.mem_singleton] at ht
      rwa [hnil, List.intercalate_singleton, ← ht]
    · rw [List.intercalate_cons_of_ne_nil hnil]
      rcases List.mem_cons.mp ht with rfl | hmore
      · exact List.mem_append_left _ (List.mem_append_left _ hc)
      · exact List.mem_append_right _ (ih hmore)

end CodeAtlas.Text
