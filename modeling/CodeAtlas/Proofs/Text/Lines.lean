/-
The lines of a text, from its start.

A text is its first line with the line feed behind it and the text of the other lines.
-/
import CodeAtlas.Text.Basic
import Mathlib.Data.List.Basic

set_option autoImplicit false

namespace CodeAtlas.Text

variable {d : Char} {l t : List Char}

theorem splitOn_of_not_mem (hl : d ∉ l) : l.splitOn d = [l] := by
  have hfree : ∀ l' ∈ [l], d ∉ l' := List.forall_mem_singleton.mpr hl
  have h := List.splitOn_intercalate d hfree (List.cons_ne_nil l [])
  rwa [List.intercalate_singleton] at h

theorem splitOn_append_cons (hl : d ∉ l) (t : List Char) :
    (l ++ d :: t).splitOn d = l :: t.splitOn d := by
  have hone := splitOn_of_not_mem hl
  have happend : (l ++ d :: t).splitOnP (· == d) = _ :=
    List.splitOnP_append_cons l t (beq_self_eq_true d)
  simp only [List.splitOn] at hone ⊢
  rw [happend, hone, List.singleton_append]

/-- Texts are cut at the first separator in one way only. -/
theorem append_cons_inj (hl : d ∉ l) {l' t t' : List Char} (hl' : d ∉ l')
    (h : l ++ d :: t = l' ++ d :: t') : l = l' ∧ t = t' := by
  have hcut := congrArg (List.splitOn d) h
  rw [splitOn_append_cons hl, splitOn_append_cons hl'] at hcut
  obtain rfl := (List.cons.inj hcut).1
  exact ⟨rfl, (List.cons.inj (List.append_cancel_left h)).2⟩

theorem lines_nil : lines [] = [] := by decide

/-- The first line ends at the first line feed. -/
theorem lines_append_lineFeed (hl : '\n' ∉ l) (t : List Char) :
    lines (l ++ '\n' :: t) = dropCarriage l :: lines t := by
  have hne : t.splitOn '\n' ≠ [] := List.splitOn_ne_nil _ _
  simp only [lines, splitOn_append_cons hl, List.dropLast_cons_of_ne_nil hne, List.map_cons,
    List.getLast?_cons_of_ne_nil hne]
  split <;> rfl

/-- What follows the last line feed is a line, unless it is empty. -/
theorem lines_of_not_mem (hl : '\n' ∉ l) (hne : l ≠ []) : lines l = [l] := by
  have h := splitOn_of_not_mem hl
  obtain ⟨c, l, rfl⟩ := List.exists_cons_of_ne_nil hne
  simp only [lines, h]
  rfl

/-- A carriage return is dropped from the end of a line if there is one. -/
theorem dropCarriage_eq_or (l : Line) : dropCarriage l = l ∨ l = dropCarriage l ++ ['\r'] := by
  rw [dropCarriage, dropClose]
  cases hafter : after? "\r".toList.reverse l.reverse with
  | none => exact .inl rfl
  | some rest =>
    refine .inr ?_
    have hreverse := congrArg List.reverse (after?_eq_some_iff.mp hafter)
    rw [List.reverse_append, List.reverse_reverse] at hreverse
    exact hreverse

theorem isBlank_dropCarriage (h : isBlank l = true) : isBlank (dropCarriage l) = true := by
  rcases dropCarriage_eq_or l with heq | heq
  · rwa [heq]
  · rw [heq, isBlank, List.all_append, Bool.and_eq_true] at h
    exact h.1

/-- The text of lines that end in line feeds. -/
def terminated (ls : List Line) : List Char := ls.flatMap (· ++ ['\n'])

theorem terminated_cons_append (l : Line) (ls : List Line) (t : List Char) :
    terminated (l :: ls) ++ t = l ++ '\n' :: (terminated ls ++ t) := by
  simp only [terminated, List.flatMap_cons, List.append_assoc, List.cons_append, List.nil_append]

theorem lines_terminated_append {ls : List Line} (hls : ∀ l ∈ ls, '\n' ∉ l) (t : List Char) :
    lines (terminated ls ++ t) = ls.map dropCarriage ++ lines t := by
  induction ls with
  | nil => rfl
  | cons l ls ih =>
    obtain ⟨hl, hls⟩ := List.forall_mem_cons.mp hls
    rw [terminated_cons_append, lines_append_lineFeed hl, ih hls, List.map_cons, List.cons_append]

theorem intercalate_concat (ls : List Line) (l : Line) :
    ['\n'].intercalate (ls ++ [l]) = terminated ls ++ l := by
  induction ls with
  | nil => rw [List.nil_append, List.intercalate_singleton]; rfl
  | cons k ls ih =>
    rw [List.cons_append, List.intercalate_cons_of_ne_nil (by simp), ih, terminated_cons_append,
      List.append_assoc]
    rfl

/-- Lines between line feeds are those lines, if the last one is not empty. -/
theorem lines_intercalate {ls : List Line} (hls : ∀ l ∈ ls, '\n' ∉ l) {l : Line} (hl : '\n' ∉ l)
    (hne : l ≠ []) :
    lines (['\n'].intercalate (ls ++ [l])) = ls.map dropCarriage ++ [l] := by
  rw [intercalate_concat, lines_terminated_append hls, lines_of_not_mem hl hne]

/-- A text is lines with line feeds behind them, and what follows the last line feed. -/
theorem exists_terminated (t : List Char) :
    ∃ ls l, (∀ x ∈ ls, '\n' ∉ x) ∧ '\n' ∉ l ∧ t = terminated ls ++ l ∧
      t.splitOn '\n' = ls ++ [l] := by
  induction hlen : t.length using Nat.strongRecOn generalizing t with
  | ind n ih =>
    by_cases hfeed : '\n' ∈ t
    · obtain ⟨l, rest, rfl, hl⟩ := List.eq_append_cons_of_mem hfeed
      obtain ⟨ls, last, hls, hlast, hrest, hsplit⟩ :=
        ih rest.length (by simp at hlen; omega) rest rfl
      refine ⟨l :: ls, last, List.forall_mem_cons.mpr ⟨hl, hls⟩, hlast, ?_, ?_⟩
      · rw [terminated_cons_append, ← hrest]
      · rw [splitOn_append_cons hl, hsplit, List.cons_append]
    · exact ⟨[], t, by simp, hfeed, rfl, splitOn_of_not_mem hfeed⟩

/-- There is no line feed in a line. -/
theorem lineFeed_notMem_lines (t : List Char) : ∀ l ∈ lines t, '\n' ∉ l := by
  obtain ⟨ls, last, hls, hlast, rfl, -⟩ := exists_terminated t
  have hend : ∀ l ∈ lines last, '\n' ∉ l := by
    by_cases hempty : last = []
    · rw [hempty, lines_nil]
      exact nofun
    · rw [lines_of_not_mem hlast hempty]
      exact List.forall_mem_singleton.mpr hlast
  rw [lines_terminated_append hls]
  refine List.forall_mem_append.mpr ⟨List.forall_mem_map.mpr fun l hl hmem => ?_, hend⟩
  refine hls l hl ?_
  rcases dropCarriage_eq_or l with heq | heq
  · rwa [heq] at hmem
  · rw [heq]
    exact List.mem_append_left _ hmem

end CodeAtlas.Text
