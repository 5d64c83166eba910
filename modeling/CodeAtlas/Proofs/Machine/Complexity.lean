/-
Complexities in 32 bits.

The decisions of a line are occurrences of patterns, and occurrences do not overlap. A branching
word and a logical operator have two characters at least, a choice has three, so a line of `n`
characters holds at most `4 * n / 3` decisions (`decisions_le`). A body adds one to them, and it
has a line to add it to (`share`).

Functions and methods of a file share no line. So the sum of their complexities is at most that of
the shares of the lines (`complexities_le`), which is less than `2 ^ 32` for a file of less than
`2 ^ 31` characters. For one body that would be plain; for the sum it is the tiling of the file by
its functions and methods that keeps the same line from being counted twice.
-/
import CodeAtlas.Proofs.Machine.Header
import CodeAtlas.Proofs.Outline.Metadata
import CodeAtlas.Proofs.Pattern.Occurrences
import CodeAtlas.Proofs.Scan.IndentTiling
import CodeAtlas.Proofs.Text.Lines
import Mathlib.Algebra.BigOperators.Intervals
import Mathlib.Algebra.Order.BigOperators.Group.Finset

set_option autoImplicit false

namespace CodeAtlas

/-! ## The room of a text -/

namespace Text

theorem length_le_byteLength (t : List Char) : t.length ≤ byteLength t := by
  induction t with
  | nil => exact Nat.le_refl _
  | cons c t ih =>
    have hsize := c.utf8Size_pos
    rw [byteLength] at ih
    rw [byteLength, sumOf_cons, List.length_cons]
    omega

theorem length_terminated (ls : List Line) : (terminated ls).length = room ls := by
  induction ls with
  | nil => rfl
  | cons l ls ih =>
    have happend := terminated_cons_append l ls []
    rw [List.append_nil, List.append_nil] at happend
    rw [happend, List.length_append, List.length_cons, ih, room_cons]
    omega

theorem room_map_dropCarriage_le (ls : List Line) : room (ls.map dropCarriage) ≤ room ls := by
  induction ls with
  | nil => exact Nat.le_refl _
  | cons l ls ih =>
    have hl : (dropCarriage l).length ≤ l.length := by
      rcases dropCarriage_eq_or l with heq | heq
      · rw [heq]
      · have hlength := congrArg List.length heq
        rw [List.length_append] at hlength
        omega
    rw [List.map_cons, room_cons, room_cons]
    omega

/-- Only the last line of a text may have no line break of its own. -/
theorem room_lines_le (t : List Char) : room (lines t) ≤ t.length + 1 := by
  obtain ⟨ls, last, hls, hlast, rfl, -⟩ := exists_terminated t
  have hfirst := room_map_dropCarriage_le ls
  have hend : room (lines last) ≤ last.length + 1 := by
    by_cases hempty : last = []
    · rw [hempty, lines_nil]
      exact Nat.zero_le _
    · rw [lines_of_not_mem hlast hempty]
      exact Nat.le_refl _
  rw [lines_terminated_append hls, room_append, List.length_append, length_terminated]
  omega

end Text

/-! ## Lines -/

namespace Analysis

theorem decisions_le (t : List Char) : 3 * decisions t ≤ 4 * t.length := by
  have hbranch : branchWord.count t * 2 ≤ t.length := branchWord.count_mul_minLength_le t
  have hlogic : logicalOperator.count t * 2 ≤ t.length := logicalOperator.count_mul_minLength_le t
  have hchoice : choiceMark.count t * 3 ≤ t.length := choiceMark.count_mul_minLength_le t
  rw [decisions]
  omega

/-- What a line can add to the complexity of a body: its decisions, and one if no other line of
the body has added it. -/
def share (l : Line) : Nat := 1 + decisions (Text.trim l)

theorem share_le (ls : List Line) : 3 * sumOf share ls ≤ 4 * room ls := by
  induction ls with
  | nil => exact Nat.le_refl _
  | cons l ls ih =>
    have hline := decisions_le (Text.trim l)
    have htrim := length_trim_le l
    rw [sumOf_cons, room_cons, share]
    omega

theorem sumOf_decisions_le (family : Family) (ls : List Line) :
    sumOf (fun l => decisions (Text.trim l)) (ls.filter (isSignificant family)) + ls.length ≤
      sumOf share ls := by
  induction ls with
  | nil => exact Nat.le_refl _
  | cons l ls ih =>
    rw [sumOf_cons, share, List.length_cons, List.filter_cons]
    split
    · rw [sumOf_cons]
      omega
    · omega

theorem complexity_le (family : Family) {ls : List Line} (hne : ls ≠ []) :
    complexity family ls ≤ sumOf share ls := by
  have hlines := sumOf_decisions_le family ls
  have hpos := List.length_pos_iff.mpr hne
  rw [complexity]
  omega

end Analysis

namespace Machine

/-- One and the decisions of the lines, each number of decisions and each sum checked. -/
def complexity? (family : Family) (ls : List Line) : Option Nat :=
  addWords? (fun l => word? (Analysis.decisions (Text.trim l))) 1
    (ls.filter (Analysis.isSignificant family))

theorem complexity?_eq (family : Family) {ls : List Line} (h : room ls ≤ 2 ^ 31) :
    complexity? family ls = some (Analysis.complexity family ls) := by
  have hshare := Analysis.share_le ls
  have hsum := Analysis.sumOf_decisions_le family ls
  refine addWords?_eq (fun l hl => word?_of_lt ?_) ?_
  · -- the decisions of one line are among those of all
    have hle := sumOf_le_of_sublist (fun l => Analysis.decisions (Text.trim l))
      (List.singleton_sublist.mpr hl)
    rw [sumOf_cons, sumOf_nil] at hle
    omega
  · cases ls with
    | nil => exact Nat.one_lt_two_pow (by decide)
    | cons l ls =>
      rw [List.length_cons] at hsum
      omega

end Machine

/-! ## Bodies -/

section

variable {α : Type} {file : List Line} {path : String} {family : Family} {f : FunctionRecord}

/-- Sets that do not overlap add up to no more than what they lie in. -/
theorem sumOf_sum_le {lines : α → Finset Nat} {xs : List α} {whole : Finset Nat} (cost : Nat → Nat)
    (hin : ∀ x ∈ xs, lines x ⊆ whole)
    (hapart : xs.Pairwise fun x y => Disjoint (lines x) (lines y)) :
    sumOf (fun x => ∑ n ∈ lines x, cost n) xs ≤ ∑ n ∈ whole, cost n := by
  induction xs generalizing whole with
  | nil => exact Nat.zero_le _
  | cons x xs ih =>
    obtain ⟨hx, hxs⟩ := List.forall_mem_cons.mp hin
    obtain ⟨hfirst, hrest⟩ := List.pairwise_cons.mp hapart
    -- the others lie in what the first one leaves
    have hin : ∀ y ∈ xs, lines y ⊆ whole \ lines x :=
      fun y hy => Finset.subset_sdiff.mpr ⟨hxs y hy, (hfirst y hy).symm⟩
    have hle := ih hin hrest
    rw [sumOf_cons, ← Finset.sum_sdiff hx, Nat.add_comm]
    exact Nat.add_le_add_right hle _

/-- The lines of an extent are those with the numbers from its first line on. -/
theorem sumOf_window (cost : Line → Nat) {i extent : Nat} (h : i + extent < file.length) :
    sumOf cost (window extent (file.drop i)) =
      ∑ n ∈ Finset.Icc (i + 1) (i + 1 + extent), cost (lineAt file n) := by
  induction extent with
  | zero =>
    obtain ⟨l, ls, hdrop⟩ := List.exists_cons_of_ne_nil (Moment.drop_ne_nil (i := i) h)
    rw [Nat.add_zero, Finset.Icc_self, Finset.sum_singleton, lineAt_succ, hdrop, window_zero_cons,
      List.headD_cons, sumOf_cons, sumOf_nil, Nat.add_zero]
  | succ extent ih =>
    have hline : (file.drop i)[extent + 1]? = some (lineAt file (i + 1 + extent + 1)) := by
      rw [lineAt_succ, List.getElem?_drop, List.headD_eq_head?_getD, List.head?_drop,
        show i + (extent + 1) = i + 1 + extent by omega, List.getElem?_eq_getElem (by omega)]
      rfl
    have hlast := Finset.sum_Icc_succ_top (a := i + 1) (b := i + 1 + extent) (by omega)
      fun n => cost (lineAt file n)
    rw [← Nat.add_assoc, hlast, ← ih (by omega), window, List.take_add_one, hline, sumOf_append,
      window]
    rfl

/-- What a function reaches over lies in the file and pays for its complexity, which is not
zero. -/
structure FunctionRecord.Paid (file : List Line) (f : FunctionRecord) : Prop where
  inFile : f.lines ⊆ Finset.Icc 1 file.length
  positive : 1 ≤ f.complexity
  complexity : f.complexity ≤ ∑ n ∈ f.lines, Analysis.share (lineAt file n)

theorem FunctionRecord.HasOrigin.paid (h : f.HasOrigin path family file) : f.Paid file := by
  obtain ⟨i, extent, head, hmade⟩ := h
  obtain ⟨doc, decorators, heq⟩ := hmade.record
  have hends := hmade.ends
  have hcomplexity : f.complexity =
      Analysis.complexity family (window extent (file.drop i)) := by
    rcases heq with rfl | rfl <;> rfl
  have hlines : f.lines = Finset.Icc (i + 1) (i + 1 + extent) := by
    rcases heq with rfl | rfl <;> rfl
  have hne : window extent (file.drop i) ≠ [] := by
    rw [window, Ne, List.take_eq_nil_iff]
    have hlt : i < file.length := by omega
    have hdrop := Moment.drop_ne_nil hlt
    simp [hdrop]
  refine ⟨?_, ?_, ?_⟩
  · rw [hlines]
    exact Finset.Icc_subset_Icc (by omega) (by omega)
  · rw [hcomplexity]
    exact Nat.le_add_right _ _
  · rw [hcomplexity, hlines, ← sumOf_window Analysis.share hends]
    exact Analysis.complexity_le family hne

/-- Functions that share no line have no larger complexities together than the lines have
shares. -/
theorem complexities_le {fs : List FunctionRecord} (hpaid : ∀ f ∈ fs, f.Paid file)
    (hapart : fs.Pairwise fun f g => Disjoint f.lines g.lines) :
    sumOf (·.complexity) fs ≤ sumOf Analysis.share file := by
  have hlines : ∑ n ∈ Finset.Icc 1 file.length, Analysis.share (lineAt file n) =
      sumOf Analysis.share file := by
    rcases Nat.eq_zero_or_pos file.length with hzero | hpos
    · rw [hzero, List.length_eq_zero_iff.mp hzero]
      rfl
    · have hends : 0 + (file.length - 1) < file.length := by omega
      have hall := sumOf_window Analysis.share hends
      rw [window, List.drop_zero, Nat.sub_add_cancel hpos, List.take_length] at hall
      rw [hall, Nat.zero_add, Nat.add_sub_cancel' hpos]
  calc sumOf (·.complexity) fs
      ≤ sumOf (fun f => ∑ n ∈ f.lines, Analysis.share (lineAt file n)) fs :=
        sumOf_le_sumOf fun f hf => (hpaid f hf).complexity
    _ ≤ ∑ n ∈ Finset.Icc 1 file.length, Analysis.share (lineAt file n) :=
        sumOf_sum_le _ (fun f hf => (hpaid f hf).inFile) hapart
    _ = sumOf Analysis.share file := hlines

end

end CodeAtlas
