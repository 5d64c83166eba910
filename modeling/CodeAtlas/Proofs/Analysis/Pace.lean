/-
What slows a body down.

The bottlenecks of a body are read off in one pass, which remembers the indentation of the loops
that have not ended, the number of lines in a row that wait, and whether anything was gathered. Here
they are said of the lines as they stand (`NestsLoops`, `WaitsInSequence`), without a memory and
without the patterns, and the pass finds these and no others (`bottlenecks_iff`).

What the pass remembers has one shape: there was a line of some kind, and each line since then was
of another kind (`Since`). What it notes has the shape that some line is of a kind that depends on
those in front of it (`Once`). Both are told for one more line at the end, which is the step of the
pass.
-/
import CodeAtlas.Analysis.Body
import CodeAtlas.Proofs.Pattern.WholeWord
import CodeAtlas.Proofs.Text.Reindent
import CodeAtlas.Proofs.Text.Unrepeated

set_option autoImplicit false

namespace CodeAtlas

namespace Analysis

/-! ## The lines of a body -/

section

variable (family : Family) (l : Line)

/-- The number of loop keywords on a line. -/
def loopWords : Nat := Text.wordCount ["for", "while"] l

/-- A line with a loop keyword, neither blank nor a comment. -/
def IsLoop : Prop := isSignificant family l = true ∧ 0 < loopWords l

/-- A line that waits: something stands behind the keyword. -/
def Waits : Prop :=
  isSignificant family l = true ∧ Text.has "await " (Text.lower (Text.trim l)) = true

/-- A line that waits for many things at once. -/
def Gathers : Prop :=
  isSignificant family l = true ∧
    Text.hasAny ["promise.all", "asyncio.gather"] (Text.lower l) = true

end

/-- A loop in a loop: two keywords on one line, or a loop behind another one, where all lines from
the outer loop to the inner one are indented deeper than the outer one. -/
def NestsLoops (family : Family) (ls : List Line) : Prop :=
  (∃ l ∈ ls, isSignificant family l = true ∧ 2 ≤ loopWords l) ∨
    ∃ before outer between inner after,
      ls = before ++ outer :: (between ++ inner :: after) ∧
        IsLoop family outer ∧ IsLoop family inner ∧
        ∀ l ∈ between ++ [inner], isSignificant family l = true →
          Text.indentation outer < Text.indentation l

/-- Two lines that wait, one after the other, and nothing gathered so far. -/
def WaitsInSequence (family : Family) (ls : List Line) : Prop :=
  ∃ before first between second after,
    ls = before ++ first :: (between ++ second :: after) ∧
      Waits family first ∧ Waits family second ∧
      (∀ l ∈ between, isSignificant family l = false) ∧
      ∀ l ∈ before ++ first :: (between ++ [second]), ¬Gathers family l

/-! ## One more line -/

section

variable {p q : Line → Prop} {r : List Line → Line → Prop} {ls : List Line} {l : Line}

/-- There was a line of the first kind, and all lines since are of the second. -/
def Since (p q : Line → Prop) (ls : List Line) : Prop :=
  ∃ before l after, ls = before ++ l :: after ∧ p l ∧ ∀ x ∈ after, q x

/-- There was a line of a kind that depends on the lines in front. -/
def Once (r : List Line → Line → Prop) (ls : List Line) : Prop :=
  ∃ before l after, ls = before ++ l :: after ∧ r before l

theorem not_since_nil : ¬Since p q [] := by
  rintro ⟨before, l, after, hsplit, -⟩
  exact List.append_ne_nil_of_right_ne_nil before (List.cons_ne_nil l after) hsplit.symm

theorem not_once_nil : ¬Once r [] := by
  rintro ⟨before, l, after, hsplit, -⟩
  exact List.append_ne_nil_of_right_ne_nil before (List.cons_ne_nil l after) hsplit.symm

/-- A line of a longer list is one of the old lines or the new one. -/
theorem split_concat_iff {before after : List Line} {x : Line} :
    ls ++ [l] = before ++ x :: after ↔
      (∃ after', after = after' ++ [l] ∧ ls = before ++ x :: after') ∨
        (after = [] ∧ x = l ∧ ls = before) := by
  constructor
  · intro hsplit
    rcases List.eq_nil_or_concat after with rfl | ⟨after', y, rfl⟩
    · obtain ⟨hls, hl⟩ := List.append_inj' hsplit rfl
      exact .inr ⟨rfl, (List.singleton_inj.mp hl).symm, hls⟩
    · rw [List.concat_eq_append, ← List.cons_append, ← List.append_assoc] at hsplit
      obtain ⟨hls, hl⟩ := List.append_inj' hsplit rfl
      rw [List.concat_eq_append, List.singleton_inj.mp hl]
      exact .inl ⟨after', rfl, hls⟩
  · rintro (⟨after', rfl, rfl⟩ | ⟨rfl, rfl, rfl⟩)
    · rw [List.append_assoc, List.cons_append]
    · rfl

theorem since_concat_iff : Since p q (ls ++ [l]) ↔ Since p q ls ∧ q l ∨ p l := by
  constructor
  · rintro ⟨before, x, after, hsplit, hx, hafter⟩
    rcases split_concat_iff.mp hsplit with ⟨after', rfl, hls⟩ | ⟨-, rfl, -⟩
    · obtain ⟨hold, hl⟩ := List.forall_mem_append.mp hafter
      exact .inl ⟨⟨before, x, after', hls, hx, hold⟩, hl l (List.mem_singleton_self l)⟩
    · exact .inr hx
  · rintro (⟨⟨before, x, after, rfl, hx, hafter⟩, hl⟩ | hl)
    · refine ⟨before, x, after ++ [l], by simp, hx, List.forall_mem_append.mpr ⟨hafter, ?_⟩⟩
      rwa [List.forall_mem_singleton]
    · exact ⟨ls, l, [], rfl, hl, List.forall_mem_nil _⟩

theorem once_concat_iff : Once r (ls ++ [l]) ↔ Once r ls ∨ r ls l := by
  constructor
  · rintro ⟨before, x, after, hsplit, hx⟩
    rcases split_concat_iff.mp hsplit with ⟨after', -, hls⟩ | ⟨-, rfl, rfl⟩
    · exact .inl ⟨before, x, after', hls, hx⟩
    · exact .inr hx
  · rintro (⟨before, x, after, rfl, hx⟩ | hl)
    · exact ⟨before, x, after ++ [l], by simp, hx⟩
    · exact ⟨ls, l, [], rfl, hl⟩

end

/-! ## What is remembered -/

section

variable (family : Family) (ls : List Line) (l : Line)

/-- A loop of this indentation has not ended: all lines since are indented deeper. -/
def LoopOpen (n : Nat) : Prop :=
  Since (fun l => IsLoop family l ∧ Text.indentation l = n)
    (fun l => isSignificant family l = true → n < Text.indentation l) ls

/-- The last line that is neither blank nor a comment waits. -/
def EndsWaiting : Prop := Since (Waits family) (isSignificant family · = false) ls

/-- The line is a loop in a loop, the outer one on the line itself or in front. -/
def Nests : Prop :=
  isSignificant family l = true ∧
    (2 ≤ loopWords l ∨ 0 < loopWords l ∧ ∃ n, LoopOpen family ls n ∧ n < Text.indentation l)

/-- The line waits like the one in front, and nothing is gathered so far. -/
def WaitsAgain : Prop :=
  EndsWaiting family ls ∧ Waits family l ∧ ∀ x ∈ ls ++ [l], ¬Gathers family x

theorem nestsLoops_iff : NestsLoops family ls ↔ Once (Nests family) ls := by
  constructor
  · rintro (⟨l, hl, hline, htwo⟩ | ⟨before, outer, between, inner, after, rfl, houter, hinner, hdeep⟩)
    · obtain ⟨before, after, rfl⟩ := List.append_of_mem hl
      exact ⟨before, l, after, rfl, hline, .inl htwo⟩
    · obtain ⟨hbetween, hin⟩ := List.forall_mem_append.mp hdeep
      exact ⟨before ++ outer :: between, inner, after, by simp, hinner.1, .inr ⟨hinner.2, _,
        ⟨before, outer, between, rfl, ⟨houter, rfl⟩, hbetween⟩,
        hin inner (List.mem_singleton_self inner) hinner.1⟩⟩
  · rintro ⟨front, l, after, rfl, hline, htwo | ⟨hloop, n, hopen, hn⟩⟩
    · exact .inl ⟨l, List.mem_append_right front List.mem_cons_self, hline, htwo⟩
    · obtain ⟨before, outer, between, rfl, ⟨houter, rfl⟩, hbetween⟩ := hopen
      refine .inr ⟨before, outer, between, l, after, by simp, houter, ⟨hline, hloop⟩, ?_⟩
      refine List.forall_mem_append.mpr ⟨hbetween, ?_⟩
      rw [List.forall_mem_singleton]
      exact fun _ => hn

theorem waitsInSequence_iff : WaitsInSequence family ls ↔ Once (WaitsAgain family) ls := by
  constructor
  · rintro ⟨before, first, between, second, after, rfl, hfirst, hsecond, hbetween, hnone⟩
    refine ⟨before ++ first :: between, second, after, by simp,
      ⟨before, first, between, rfl, hfirst, hbetween⟩, hsecond, ?_⟩
    rwa [List.append_assoc]
  · rintro ⟨front, second, after, rfl, ⟨before, first, between, rfl, hfirst, hbetween⟩,
      hsecond, hnone⟩
    rw [List.append_assoc] at hnone
    exact ⟨before, first, between, second, after, by simp, hfirst, hsecond, hbetween, hnone⟩

end

/-! ## Reading a trimmed line -/

theorem areWords_loops : Text.AreWords ["for", "while"] := by decide +kernel

/-- The keywords that the pattern counts on the trimmed line. -/
theorem count_loopWord (l : Line) : loopWord.count (Text.trim l) = loopWords l :=
  (Pattern.count_wholeWord areWords_loops _).trans (Text.wordCount_trim areWords_loops l)

end Analysis

/-- The text has a character, and no blank. -/
def Text.IsBlack (w : String) : Prop := w.toList ≠ [] ∧ ∀ c ∈ w.toList, isBlankChar c = false

instance (w : String) : Decidable (Text.IsBlack w) := inferInstanceAs (Decidable (_ ∧ _))

/-- A text without blanks occurs in the trimmed line if it occurs in the line. -/
theorem Text.has_lower_trim {w : String} (hw : IsBlack w) (t : List Char) :
    has w (lower (trim t)) = has w (lower t) := by
  obtain ⟨g, g', hg, hg', hsplit⟩ := exists_trim t
  obtain ⟨c, v, hv⟩ := List.exists_cons_of_ne_nil hw.1
  have hc : isBlankChar c = false := hw.2 c (by rw [hv]; exact List.mem_cons_self)
  have hbehind : ∀ u, occurs w.toList (u ++ g') = occurs w.toList u := by
    intro u
    cases g' with
    | nil => rw [List.append_nil]
    | cons b g' =>
      rw [isBlank, List.all_cons, Bool.and_eq_true] at hg'
      have hb : b ∉ w.toList := by
        intro hmem
        rw [hw.2 b hmem] at hg'
        cases hg'.1
      have hnone := occurs_append_of_isBlank (w := v) hc hg'.2 []
      rw [List.append_nil, ← hv] at hnone
      rw [occurs_append_cons hb hw.1, hnone, hv]
      exact Bool.or_false _
  have hlower : lower t = g ++ (lower (trim t) ++ g') := by
    conv_lhs => rw [hsplit]
    rw [lower_append, lower_append, lower_of_isBlank hg, lower_of_isBlank hg']
  rw [has, has, hlower, hv, occurs_append_of_isBlank hc hg, ← hv, hbehind]

namespace Analysis

/-- What is gathered is seen on the trimmed line too. -/
theorem hasAny_gathering (l : Line) :
    Text.hasAny ["promise.all", "asyncio.gather"] (Text.lower (Text.trim l)) =
      Text.hasAny ["promise.all", "asyncio.gather"] (Text.lower l) := by
  rw [Text.hasAny, Text.hasAny, List.any_cons, List.any_cons, List.any_cons, List.any_cons,
    Text.has_lower_trim (by decide), Text.has_lower_trim (by decide), List.any_nil, List.any_nil]

/-! ## One step of the pass -/

namespace PaceState

section

variable (s : PaceState) (b : Bool) (mark : String)

@[simp] theorem note_openLoops : (s.note b mark).openLoops = s.openLoops := by
  unfold note
  split <;> rfl

@[simp] theorem note_waits : (s.note b mark).waits = s.waits := by
  unfold note
  split <;> rfl

@[simp] theorem note_gathered : (s.note b mark).gathered = s.gathered := by
  unfold note
  split <;> rfl

@[simp] theorem note_optimizations :
    (s.note b mark).found.optimizations = s.found.optimizations := by
  unfold note
  split <;> rfl

@[simp] theorem mem_note_bottlenecks {w : String} : w ∈ (s.note b mark).found.bottlenecks ↔
    w ∈ s.found.bottlenecks ∨ b = true ∧ w = mark := by
  unfold note
  split
  · rename_i hb
    rw [Text.mem_insertLast, and_iff_right hb]
  · rename_i hb
    rw [or_iff_left fun h => hb h.1]

theorem nodup_note (h : s.found.bottlenecks.Nodup) :
    (s.note b mark).found.bottlenecks.Nodup := by
  unfold note
  split
  · exact Text.nodup_insertLast h
  · exact h

end

section

variable (s : PaceState) (indent : Nat) (t : List Char) {n : Nat} {w : String}

@[simp] theorem loops_waits : (s.loops indent t).waits = s.waits := by
  simp only [loops]
  split
  · rfl
  · exact note_waits _ _ _

@[simp] theorem loops_gathered : (s.loops indent t).gathered = s.gathered := by
  simp only [loops]
  split
  · rfl
  · exact note_gathered _ _ _

theorem mem_loops_openLoops : n ∈ (s.loops indent t).openLoops ↔
    n ∈ s.openLoops ∧ n < indent ∨ 0 < loopWord.count t ∧ indent = n := by
  have hfilter : n ∈ s.openLoops.filter (· < indent) ↔ n ∈ s.openLoops ∧ n < indent := by
    rw [List.mem_filter, decide_eq_true_iff]
  simp only [loops]
  split
  · rename_i hnone
    rw [hnone, or_iff_left fun h => absurd h.1 (Nat.lt_irrefl 0)]
    exact hfilter
  · rename_i hsome
    rw [and_iff_right (Nat.pos_of_ne_zero hsome), or_comm, eq_comm, ← hfilter]
    exact List.mem_cons

theorem mem_loops_bottlenecks : w ∈ (s.loops indent t).found.bottlenecks ↔
    w ∈ s.found.bottlenecks ∨ w = "nested_loops" ∧
      (2 ≤ loopWord.count t ∨ 0 < loopWord.count t ∧ ∃ n, n ∈ s.openLoops ∧ n < indent) := by
  have hopen : (!(s.openLoops.filter (· < indent)).isEmpty) = true ↔
      ∃ n, n ∈ s.openLoops ∧ n < indent := by
    rw [Bool.not_eq_true', List.isEmpty_eq_false_iff_exists_mem]
    simp only [List.mem_filter, decide_eq_true_iff]
  simp only [loops]
  split
  · rename_i hnone
    simp [hnone]
  · rename_i hsome
    have hpos := Nat.pos_of_ne_zero hsome
    simp only [mem_note_bottlenecks, Bool.or_eq_true, hopen, decide_eq_true_iff, hpos, true_and]
    rw [and_comm (a := w = _), or_comm (b := 1 < _)]
    rfl

theorem nodup_loops (h : s.found.bottlenecks.Nodup) :
    (s.loops indent t).found.bottlenecks.Nodup := by
  simp only [loops]
  split
  · exact h
  · exact nodup_note _ _ _ h

@[simp] theorem loops_optimizations :
    (s.loops indent t).found.optimizations = s.found.optimizations := by
  simp only [loops]
  split
  · rfl
  · exact note_optimizations _ _ _

end

section

variable (s : PaceState) (low : List Char) {w : String}

@[simp] theorem waiting_openLoops : (s.waiting low).openLoops = s.openLoops := by
  unfold waiting
  split
  · exact note_openLoops _ _ _
  · rfl

theorem waiting_waits : 0 < (s.waiting low).waits ↔ Text.has "await " low = true := by
  unfold waiting
  split
  · rename_i hwaits
    simp [hwaits]
  · rename_i hwaits
    simp [hwaits]

theorem waiting_gathered : (s.waiting low).gathered =
    (s.gathered || Text.hasAny ["promise.all", "asyncio.gather"] low) := by
  unfold waiting
  split
  · exact note_gathered _ _ _
  · rfl

theorem mem_waiting_bottlenecks : w ∈ (s.waiting low).found.bottlenecks ↔
    w ∈ s.found.bottlenecks ∨ w = "sequential_awaits" ∧ 0 < s.waits ∧
      Text.has "await " low = true ∧ (s.waiting low).gathered = false := by
  rw [waiting_gathered]
  unfold waiting
  split
  · rename_i hwaits
    simp [hwaits, and_comm]
  · rename_i hwaits
    simp [hwaits]

theorem nodup_waiting (h : s.found.bottlenecks.Nodup) :
    (s.waiting low).found.bottlenecks.Nodup := by
  unfold waiting
  split
  · exact nodup_note _ _ _ h
  · exact h

@[simp] theorem waiting_optimizations :
    (s.waiting low).found.optimizations = s.found.optimizations := by
  unfold waiting
  split
  · exact note_optimizations _ _ _
  · rfl

end

section

variable (s : PaceState) (l : Line) {n : Nat} {w : String}

/-- Loops at the indentation of the line and deeper end, and the line may begin one. -/
theorem mem_line_openLoops : n ∈ (s.line l).openLoops ↔
    n ∈ s.openLoops ∧ n < Text.indentation l ∨ 0 < loopWords l ∧ Text.indentation l = n := by
  rw [← count_loopWord, ← mem_loops_openLoops, line]
  exact Iff.of_eq (congrArg (n ∈ ·) (waiting_openLoops _ _))

theorem line_waits : 0 < (s.line l).waits ↔
    Text.has "await " (Text.lower (Text.trim l)) = true := waiting_waits _ _

theorem line_gathered : (s.line l).gathered =
    (s.gathered || Text.hasAny ["promise.all", "asyncio.gather"] (Text.lower l)) := by
  have hgathered := waiting_gathered (s.loops (Text.indentation l) (Text.trim l))
    (Text.lower (Text.trim l))
  rwa [loops_gathered, hasAny_gathering] at hgathered

theorem mem_line_bottlenecks : w ∈ (s.line l).found.bottlenecks ↔
    w ∈ s.found.bottlenecks ∨
      (w = "nested_loops" ∧ (2 ≤ loopWords l ∨
        0 < loopWords l ∧ ∃ n, n ∈ s.openLoops ∧ n < Text.indentation l)) ∨
      (w = "sequential_awaits" ∧ 0 < s.waits ∧
        Text.has "await " (Text.lower (Text.trim l)) = true ∧ (s.line l).gathered = false) := by
  have hwaiting := mem_waiting_bottlenecks (w := w)
    (s.loops (Text.indentation l) (Text.trim l)) (Text.lower (Text.trim l))
  rwa [mem_loops_bottlenecks, loops_waits, count_loopWord, or_assoc] at hwaiting

theorem nodup_line (h : s.found.bottlenecks.Nodup) : (s.line l).found.bottlenecks.Nodup :=
  nodup_waiting _ _ (nodup_loops _ _ _ h)

theorem nodup_line_optimizations (h : s.found.optimizations.Nodup) :
    (s.line l).found.optimizations.Nodup := by
  refine Text.nodup_insertAll ?_
  rwa [waiting_optimizations, loops_optimizations]

end

end PaceState

/-! ## The pass -/

section

variable {family : Family} {ls : List Line} {s : PaceState} {l : Line}

/-- What the pass remembers and what it has found, said of the lines behind it. -/
structure Remembers (family : Family) (ls : List Line) (s : PaceState) : Prop where
  openLoops : ∀ n, n ∈ s.openLoops ↔ LoopOpen family ls n
  waits : 0 < s.waits ↔ EndsWaiting family ls
  gathered : s.gathered = false ↔ ∀ l ∈ ls, ¬Gathers family l
  bottlenecks : ∀ w, w ∈ s.found.bottlenecks ↔
    w = "nested_loops" ∧ Once (Nests family) ls ∨
      w = "sequential_awaits" ∧ Once (WaitsAgain family) ls
  nodup : s.found.bottlenecks.Nodup
  nodup_optimizations : s.found.optimizations.Nodup

theorem remembers_nil (family : Family) : Remembers family [] {} where
  openLoops n := iff_of_false List.not_mem_nil not_since_nil
  waits := iff_of_false (Nat.lt_irrefl 0) not_since_nil
  gathered := iff_of_true rfl (List.forall_mem_nil _)
  bottlenecks w := iff_of_false List.not_mem_nil (by simp [not_once_nil])
  nodup := .nil
  nodup_optimizations := .nil

/-- A blank line or a comment changes nothing. -/
theorem Remembers.skip (h : Remembers family ls s) (hl : isSignificant family l = false) :
    Remembers family (ls ++ [l]) s where
  openLoops n := by
    rw [h.openLoops, LoopOpen, LoopOpen, since_concat_iff]
    simp [IsLoop, hl]
  waits := by
    rw [h.waits, EndsWaiting, EndsWaiting, since_concat_iff]
    simp [Waits, hl]
  gathered := by
    rw [h.gathered, List.forall_mem_append, List.forall_mem_singleton]
    simp [Gathers, hl]
  bottlenecks w := by
    rw [h.bottlenecks, once_concat_iff, once_concat_iff]
    simp [Nests, WaitsAgain, Waits, hl]
  nodup := h.nodup
  nodup_optimizations := h.nodup_optimizations

/-- Any other line is a step of the pass. -/
theorem Remembers.line (h : Remembers family ls s) (hl : isSignificant family l = true) :
    Remembers family (ls ++ [l]) (s.line l) := by
  have hgathered : (s.line l).gathered = false ↔ ∀ x ∈ ls ++ [l], ¬Gathers family x := by
    rw [PaceState.line_gathered, Bool.or_eq_false_iff, h.gathered, List.forall_mem_append,
      List.forall_mem_singleton, Gathers, and_iff_right hl, Bool.not_eq_true]
  refine ⟨fun n => ?_, ?_, hgathered, fun w => ?_, s.nodup_line l h.nodup,
    s.nodup_line_optimizations l h.nodup_optimizations⟩
  · rw [PaceState.mem_line_openLoops, h.openLoops, LoopOpen, LoopOpen, since_concat_iff]
    simp [IsLoop, hl]
  · rw [PaceState.line_waits, EndsWaiting, since_concat_iff]
    simp [Waits, hl]
  · rw [PaceState.mem_line_bottlenecks, h.bottlenecks, hgathered, h.waits, once_concat_iff,
      once_concat_iff]
    simp only [Nests, WaitsAgain, Waits, hl, h.openLoops, true_and]
    rw [or_or_or_comm, ← and_or_left, ← and_or_left]

theorem remembers_performance (family : Family) (ls : List Line) :
    Remembers family ls ((ls.filter (isSignificant family)).foldl PaceState.line {}) := by
  induction ls using List.reverseRecOn with
  | nil => exact remembers_nil family
  | append_singleton ls l ih =>
    rw [List.filter_append, List.foldl_append]
    cases hl : isSignificant family l with
    | true =>
      rw [List.filter_cons_of_pos hl]
      exact ih.line hl
    | false =>
      rw [List.filter_cons_of_neg (by rw [hl]; exact Bool.false_ne_true)]
      exact ih.skip hl

end

end Analysis

open Analysis

/-- The pass finds the bottlenecks that the lines have, and each of them once. -/
theorem bottlenecks_iff (family : Family) (ls : List Line) :
    ("nested_loops" ∈ (performance family ls).bottlenecks ↔ NestsLoops family ls) ∧
      ("sequential_awaits" ∈ (performance family ls).bottlenecks ↔ WaitsInSequence family ls) ∧
      (performance family ls).bottlenecks ⊆ ["nested_loops", "sequential_awaits"] ∧
      (performance family ls).bottlenecks.Nodup ∧
      (performance family ls).optimizations.Nodup := by
  have hpass := remembers_performance family ls
  refine ⟨?_, ?_, ?_, hpass.nodup, hpass.nodup_optimizations⟩
  · rw [nestsLoops_iff, performance, hpass.bottlenecks]
    simp
  · rw [waitsInSequence_iff, performance, hpass.bottlenecks]
    simp
  · intro w hw
    rcases (hpass.bottlenecks w).mp hw with ⟨rfl, -⟩ | ⟨rfl, -⟩ <;> simp

/-- The blank behind the keyword does not count where the line ends with it: two such lines are no
sequence. -/
theorem not_sequential_of_await_at_end :
    (∀ l ∈ ["await ".toList, "await ".toList], isSignificant .brace l = true ∧
        Text.has "await " (Text.lower l) = true ∧ ¬Gathers .brace l) ∧
      "sequential_awaits" ∉ (performance .brace ["await ".toList, "await ".toList]).bottlenecks := by
  refine ⟨?_, by decide +kernel⟩
  simp only [Gathers]
  decide +kernel

end CodeAtlas
