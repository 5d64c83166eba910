/-
A text with other blanks in front of its lines, or with other line breaks.

`respaced width t` has `width w` spaces in front of a line where `t` has blanks that take
`w` bytes. The line breaks stay as they are: a carriage return in front of a line feed
belongs to the break and not to the line (`respaceClosed`), and the empty text behind the
last line feed is no line. For a strictly increasing width the lines of the new text are
the lines of the old one, each with its new blanks (`lines_respaced`).

A line break is a line feed, or a carriage return and a line feed. `withCarriages t` has the
second kind where `t` has the first. If `t` has no carriage returns of its own, its lines are
the same (`lines_withCarriages`): the one in front of a line feed belongs to the break. To
whoever reads the text as a whole the break is one more blank where a blank was, so that the
text has the same words, and a word that has neither character occurs where it occurred.
-/
import CodeAtlas.Proofs.Text.SameWords
import Mathlib.Data.List.DropRight
import Mathlib.Order.WellFounded

set_option autoImplicit false

namespace CodeAtlas.Text

variable (width : Nat → Nat)

/-! ## One line -/

/-- The line with spaces in front in place of its blanks. -/
def respace (l : Line) : Line := List.replicate (width (indentation l)) ' ' ++ trimStart l

theorem trimStart_trimStart (t : List Char) : trimStart (trimStart t) = trimStart t :=
  List.dropWhile_idempotent isBlankChar t

theorem isBlank_replicate (n : Nat) : isBlank (List.replicate n ' ') = true := by
  rw [isBlank, List.all_eq_true]
  intro c hc
  rw [(List.mem_replicate.mp hc).2]
  decide

theorem trimStart_respace (l : Line) : trimStart (respace width l) = trimStart l := by
  rw [respace, trimStart_append, trimStart_eq_nil_iff.mpr (isBlank_replicate _)]
  exact trimStart_trimStart l

theorem byteLength_replicate (n : Nat) : byteLength (List.replicate n ' ') = n := by
  induction n with
  | zero => rfl
  | succ n ih =>
    rw [byteLength] at ih
    rw [List.replicate_succ, byteLength, sumOf_cons, ih]
    exact Nat.add_comm 1 n

theorem indentation_respace (l : Line) :
    indentation (respace width l) = width (indentation l) := by
  have hrest : (trimStart l).takeWhile isBlankChar = [] := by
    have happend := takeWhile_append_trimStart (trimStart l)
    rw [trimStart_trimStart] at happend
    exact List.append_left_eq_self.mp happend
  have hspaces := List.all_eq_true.mp (isBlank_replicate (width (indentation l)))
  rw [indentation, respace, List.takeWhile_append_of_pos hspaces, hrest, List.append_nil,
    byteLength_replicate]

variable {width}

theorem reindents_respace (hwidth : StrictMono width) : Reindents (respace width) width :=
  ⟨trimStart_respace width, indentation_respace width, hwidth⟩

theorem not_mem_respace {l : Line} (h : '\n' ∉ l) : '\n' ∉ respace width l := by
  rw [respace, List.mem_append, not_or]
  constructor
  · intro hmem
    exact absurd (List.mem_replicate.mp hmem).2 (by decide)
  · exact fun hmem => h ((List.dropWhile_suffix _).mem hmem)

/-- A line that is not empty keeps at least as many blanks as it had. -/
theorem respace_ne_nil (hwidth : StrictMono width) {l : Line} (hne : l ≠ []) :
    respace width l ≠ [] := by
  intro hnil
  obtain ⟨hspaces, hrest⟩ := List.append_eq_nil_iff.mp hnil
  have hzero : indentation l ≤ 0 := by
    have hle : indentation l ≤ width (indentation l) := hwidth.le_apply
    have hnone := congrArg List.length hspaces
    rw [List.length_replicate, List.length_nil] at hnone
    omega
  have hall : l.takeWhile isBlankChar = l := by
    have happend := takeWhile_append_trimStart l
    rwa [hrest, List.append_nil] at happend
  obtain ⟨c, l, rfl⟩ := List.exists_cons_of_ne_nil hne
  rw [indentation, hall, byteLength, sumOf_cons] at hzero
  have hsize := c.utf8Size_pos
  omega

/-! ## Carriage returns -/

theorem dropCarriage_append (l : Line) : dropCarriage (l ++ ['\r']) = l := by
  have hafter : after? "\r".toList.reverse (l ++ ['\r']).reverse = some l.reverse := by
    rw [List.reverse_append]
    rfl
  rw [dropCarriage, dropClose, hafter, Option.map_some, Option.getD_some, List.reverse_reverse]

theorem dropCarriage_eq_self_iff {l : Line} :
    dropCarriage l = l ↔ l.getLast? ≠ some '\r' := by
  constructor
  · intro heq hlast
    obtain ⟨front, rfl⟩ := List.getLast?_eq_some_iff.mp hlast
    rw [dropCarriage_append] at heq
    have hlength := congrArg List.length heq
    rw [List.length_append] at hlength
    simp at hlength
  · intro hlast
    rcases dropCarriage_eq_or l with heq | heq
    · exact heq
    · rw [heq, List.getLast?_append] at hlast
      exact absurd rfl hlast

variable (width)

/-- A line in front of a line feed, with the carriage return that belongs to the break. -/
def respaceClosed (l : Line) : Line :=
  respace width (dropCarriage l) ++ l.drop (dropCarriage l).length

theorem respaceClosed_of_getLast? {l : Line} (h : l.getLast? ≠ some '\r') :
    respaceClosed width l = respace width l := by
  rw [respaceClosed, dropCarriage_eq_self_iff.mpr h, List.drop_length, List.append_nil]

theorem respaceClosed_append (l : Line) :
    respaceClosed width (l ++ ['\r']) = respace width l ++ ['\r'] := by
  rw [respaceClosed, dropCarriage_append, List.drop_left]

/-- A line without or with a carriage return at its end. -/
theorem getLast?_cases (l : Line) :
    l.getLast? ≠ some '\r' ∨ ∃ front, l = front ++ ['\r'] := by
  by_cases hlast : l.getLast? = some '\r'
  · exact .inr (List.getLast?_eq_some_iff.mp hlast)
  · exact .inl hlast

theorem trimStart_respaceClosed (l : Line) :
    trimStart (respaceClosed width l) = trimStart l := by
  rcases getLast?_cases l with hlast | ⟨front, rfl⟩
  · rw [respaceClosed_of_getLast? width hlast, trimStart_respace]
  · rw [respaceClosed_append, trimStart_append, trimStart_append, trimStart_respace]

theorem dropCarriage_respaceClosed (l : Line) :
    dropCarriage (respaceClosed width l) = respace width (dropCarriage l) := by
  rcases getLast?_cases l with hlast | ⟨front, rfl⟩
  · rw [respaceClosed_of_getLast? width hlast, dropCarriage_eq_self_iff.mpr hlast,
      dropCarriage_eq_self_iff, respace]
    intro hreturn
    rw [List.getLast?_append] at hreturn
    cases hrest : (trimStart l).getLast? with
    | none =>
      rw [hrest, Option.none_or, List.getLast?_replicate] at hreturn
      split at hreturn
      · cases hreturn
      · exact absurd (Option.some.inj hreturn) (by decide)
    | some c =>
      -- then the line itself ends in it
      obtain ⟨front, hfront⟩ := List.getLast?_eq_some_iff.mp hrest
      rw [hrest, Option.some_or] at hreturn
      rw [← takeWhile_append_trimStart l, List.getLast?_append, hrest, Option.some_or] at hlast
      exact hlast hreturn
  · rw [respaceClosed_append, dropCarriage_append, dropCarriage_append]

theorem not_mem_respaceClosed {l : Line} (h : '\n' ∉ l) : '\n' ∉ respaceClosed width l := by
  rw [respaceClosed, List.mem_append, not_or]
  constructor
  · refine not_mem_respace fun hmem => h ?_
    rcases dropCarriage_eq_or l with heq | heq
    · rwa [heq] at hmem
    · rw [heq]
      exact List.mem_append_left _ hmem
  · exact fun hmem => h (List.mem_of_mem_drop hmem)

/-! ## Texts -/

/-- The text with spaces in front of its lines in place of their blanks. -/
def respaced (t : List Char) : List Char :=
  let pieces := t.splitOn '\n'
  let last := pieces.getLastD []
  terminated (pieces.dropLast.map (respaceClosed width)) ++
    if last.isEmpty then [] else respace width last

theorem respaced_eq {ls : List Line} {l t : List Char} (h : t.splitOn '\n' = ls ++ [l]) :
    respaced width t =
      terminated (ls.map (respaceClosed width)) ++ if l.isEmpty then [] else respace width l := by
  simp only [respaced, h, List.dropLast_concat, List.getLastD_concat]

theorem trimStart_respaced_last (l : Line) :
    trimStart (if l.isEmpty then [] else respace width l) = trimStart l := by
  by_cases hl : l.isEmpty = true
  · rw [if_pos hl, List.isEmpty_iff.mp hl]
  · rw [if_neg hl, trimStart_respace]

theorem sameWords_respaced (t : List Char) :
    SameWords (trimStart (respaced width t)) (trimStart t) := by
  obtain ⟨ls, l, -, -, ht, hsplit⟩ := exists_terminated t
  rw [respaced_eq width hsplit]
  conv_rhs => rw [ht]
  exact sameWords_terminated (trimStart_respaceClosed width) ls (trimStart_respaced_last width l)

theorem has_lower_respaced (t : List Char) {w : String} (hw : isCompact w = true) :
    has w (lower (respaced width t)) = has w (lower t) := by
  obtain ⟨ls, l, -, -, ht, hsplit⟩ := exists_terminated t
  rw [respaced_eq width hsplit, has_lower_terminated (trimStart_respaceClosed width) ls hw
    (trimStart_respaced_last width l), ← ht]

/-- The lines of the text are the lines that it had, with their new blanks. -/
theorem lines_respaced (hwidth : StrictMono width) (t : List Char) :
    lines (respaced width t) = (lines t).map (respace width) := by
  obtain ⟨ls, l, hls, hl, ht, hsplit⟩ := exists_terminated t
  have hclosed : ∀ x ∈ ls.map (respaceClosed width), '\n' ∉ x := by
    intro x hx
    obtain ⟨y, hy, rfl⟩ := List.mem_map.mp hx
    exact not_mem_respaceClosed width (hls y hy)
  have hlast : lines (if l.isEmpty then [] else respace width l) =
      (lines l).map (respace width) := by
    by_cases hempty : l.isEmpty = true
    · rw [if_pos hempty, List.isEmpty_iff.mp hempty, lines_nil, List.map_nil]
    · have hne : l ≠ [] := fun heq => hempty (List.isEmpty_iff.mpr heq)
      rw [if_neg hempty, lines_of_not_mem (not_mem_respace hl) (respace_ne_nil hwidth hne),
        lines_of_not_mem hl hne, List.map_singleton]
  rw [respaced_eq width hsplit, lines_terminated_append hclosed, hlast, ht,
    lines_terminated_append hls, List.map_append, List.map_map, List.map_map]
  congr 1
  exact List.map_congr_left fun x _ => dropCarriage_respaceClosed width x

/-! ## Carriage returns in front of line feeds -/

/-- The text with a carriage return in front of each line feed. -/
def withCarriages (t : List Char) : List Char :=
  t.flatMap fun c => if c = '\n' then ['\r', '\n'] else [c]

variable {l t : List Char} {c : Char}

theorem withCarriages_lineFeed (t : List Char) :
    withCarriages ('\n' :: t) = '\r' :: '\n' :: withCarriages t := rfl

theorem withCarriages_cons (hc : c ≠ '\n') (t : List Char) :
    withCarriages (c :: t) = c :: withCarriages t := by
  rw [withCarriages, List.flatMap_cons, if_neg hc]
  rfl

/-- Each line feed takes one more byte. -/
theorem byteLength_withCarriages (t : List Char) :
    byteLength (withCarriages t) = byteLength t + t.count '\n' := by
  have hbyte : '\r'.utf8Size = 1 := rfl
  induction t with
  | nil => rfl
  | cons c t ih =>
    simp only [byteLength] at ih ⊢
    by_cases hc : c = '\n'
    · subst hc
      rw [withCarriages_lineFeed, sumOf_cons, sumOf_cons, sumOf_cons, ih, List.count_cons_self]
      omega
    · rw [withCarriages_cons hc, sumOf_cons, sumOf_cons, ih, List.count_cons_of_ne hc]
      omega

/-! ## Lines -/

theorem withCarriages_of_not_mem (h : '\n' ∉ l) : withCarriages l = l := by
  induction l with
  | nil => rfl
  | cons c l ih =>
    obtain ⟨hc, hl⟩ := not_or.mp (mt List.mem_cons.mpr h)
    rw [withCarriages_cons (Ne.symm hc), ih hl]

/-- The breaks are those behind the lines. -/
theorem withCarriages_terminated {ls : List Line} (hls : ∀ x ∈ ls, '\n' ∉ x) (t : List Char) :
    withCarriages (terminated ls ++ t) =
      terminated (ls.map (· ++ ['\r'])) ++ withCarriages t := by
  have happend : ∀ s t : List Char, withCarriages (s ++ t) = withCarriages s ++ withCarriages t :=
    fun _ _ => List.flatMap_append
  induction ls with
  | nil => rfl
  | cons l ls ih =>
    obtain ⟨hl, hls⟩ := List.forall_mem_cons.mp hls
    rw [terminated_cons_append, happend, withCarriages_of_not_mem hl, withCarriages_lineFeed,
      ih hls, List.map_cons, terminated_cons_append, List.append_assoc]
    rfl

/-- The lines of a text without carriage returns do not depend on the kind of its breaks. -/
theorem lines_withCarriages (h : '\r' ∉ t) : lines (withCarriages t) = lines t := by
  obtain ⟨ls, l, hls, hl, rfl, -⟩ := exists_terminated t
  have hfree : ∀ x ∈ ls, '\r' ∉ x := by
    intro x hx hmem
    refine h (List.mem_append_left _ ?_)
    exact List.mem_flatMap.mpr ⟨x, hx, List.mem_append_left _ hmem⟩
  have hclosed : ∀ x ∈ ls.map (· ++ ['\r']), '\n' ∉ x := by
    intro x hx
    obtain ⟨y, hy, rfl⟩ := List.mem_map.mp hx
    simpa using hls y hy
  rw [withCarriages_terminated hls, withCarriages_of_not_mem hl, lines_terminated_append hclosed,
    lines_terminated_append hls, List.map_map]
  congr 1
  refine List.map_congr_left fun x hx => ?_
  have hlast : x.getLast? ≠ some '\r' := fun hsome => hfree x hx (List.mem_of_getLast? hsome)
  rw [Function.comp_apply, dropCarriage_append, dropCarriage_eq_self_iff.mpr hlast]

/-! ## Words -/

/-- A break of either kind is a run of blanks. -/
theorem sameWords_withCarriages (t : List Char) : SameWords (withCarriages t) t := by
  induction t with
  | nil => exact .nil
  | cons c t ih =>
    by_cases hfeed : c = '\n'
    · subst hfeed
      rw [withCarriages_lineFeed]
      refine .blank (by decide) (by decide) ?_
      rw [trimStart_cons_of_isBlankChar (by decide)]
      exact ih.trimStart
    · rw [withCarriages_cons hfeed]
      cases hc : isBlankChar c with
      | false => exact .char hc ih
      | true => exact .blank hc hc ih.trimStart

/-- A word that has neither character of a break occurs in the lines alone. -/
theorem has_lower_withCarriages {w : String} (hne : w.toList ≠ []) (hreturn : '\r' ∉ w.toList)
    (hfeed : '\n' ∉ w.toList) (t : List Char) :
    has w (lower (withCarriages t)) = has w (lower t) := by
  have hnone : ∀ s : List Char, occurs w.toList ('\n' :: s) = occurs w.toList s := by
    intro s
    have hapart := occurs_append_cons hfeed hne [] s
    have hempty : occurs w.toList [] = false := by simpa [occurs] using hne
    rwa [hempty, Bool.false_or] at hapart
  have hlower : ∀ s, lower ('\n' :: s) = '\n' :: lower s := fun _ => rfl
  have hlower' : ∀ s, lower ('\r' :: s) = '\r' :: lower s := fun _ => rfl
  obtain ⟨ls, l, hls, hl, rfl, -⟩ := exists_terminated t
  rw [withCarriages_terminated hls, withCarriages_of_not_mem hl]
  clear hls
  induction ls with
  | nil => rfl
  | cons x ls ih =>
    rw [has, has] at ih ⊢
    rw [List.map_cons, terminated_cons_append, terminated_cons_append, List.append_assoc,
      List.singleton_append, lower_append, lower_append, hlower', hlower, hlower,
      occurs_append_cons hreturn hne, occurs_append_cons hfeed hne, hnone, ih]

end CodeAtlas.Text
