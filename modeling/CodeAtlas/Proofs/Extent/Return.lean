/-
Where a block ends.

The body of a function should reach from its header to the first line, not before the
last one of the header, on which the brackets opened since the header began are all
closed again: `IsBlockEnd`. The reader of blocks knows nothing of the header. It begins
to count on its first line and stops where the count returns to zero, which may be inside
the parameter list if that has brackets of its own: `StopsEarly`. The answer is then
moved to the last line of the header and no further, so the body is lost.

`blockExtent_eq_or_isBlockEnd` says that there are only these two cases, and
`endsWithBlock_iff` in which of them the answer is right.
-/
import CodeAtlas.Proofs.Extent.Bounds
import Mathlib.Data.List.Basic

set_option autoImplicit false

namespace CodeAtlas

/-! ## Net brackets -/

@[simp] theorem netDelta_nil : netDelta [] = 0 := rfl

@[simp] theorem netDelta_cons (l : Line) (ls : List Line) :
    netDelta (l :: ls) = braceDelta l + netDelta ls := rfl

@[simp] theorem netDelta_append (ls ms : List Line) :
    netDelta (ls ++ ms) = netDelta ls + netDelta ms := by
  induction ls with
  | nil => simp
  | cons l ls ih => simp [ih, Int.add_assoc]

@[simp] theorem window_zero_cons (l : Line) (ls : List Line) : window 0 (l :: ls) = [l] := rfl

@[simp] theorem window_succ_cons (j : Nat) (l : Line) (ls : List Line) :
    window (j + 1) (l :: ls) = l :: window j ls := rfl

/-- Does one of the lines open a bracket? -/
def opensBrace (ls : List Line) : Bool := ls.any fun l => decide (0 < (braceCount l).opens)

@[simp] theorem opensBrace_nil : opensBrace [] = false := rfl

@[simp] theorem opensBrace_cons (l : Line) (ls : List Line) :
    opensBrace (l :: ls) = (decide (0 < (braceCount l).opens) || opensBrace ls) := rfl

/-! ## The end of a block -/

/-- The block whose header ends on line `further` ends on line `e`: that is the first line
from there on with no bracket left open, or the last one if there is none. -/
structure IsBlockEnd (balance : Int) (further : Nat) (ls : List Line) (e : Nat) : Prop where
  behind : further ≤ e
  within : e < ls.length
  first : ∀ j, further ≤ j → j < e → 0 < balance + netDelta (window j ls)
  last : balance + netDelta (window e ls) ≤ 0 ∨ e + 1 = ls.length

theorem IsBlockEnd.succ {balance : Int} {further e : Nat} {l : Line} {ls : List Line}
    (h : IsBlockEnd (balance + braceDelta l) further ls e) :
    IsBlockEnd balance (further + 1) (l :: ls) (e + 1) where
  behind := Nat.succ_le_succ h.behind
  within := Nat.succ_lt_succ h.within
  first j hj hlt := by
    -- line zero stands in front of the end of the header
    obtain ⟨j, rfl⟩ := Nat.exists_eq_succ_of_ne_zero (by omega : j ≠ 0)
    have hopen := h.first j (by omega) (by omega)
    rw [Nat.succ_eq_add_one, window_succ_cons, netDelta_cons]
    omega
  last := by
    rw [window_succ_cons, netDelta_cons, List.length_cons]
    rcases h.last with hreturn | hend
    · exact .inl (by omega)
    · exact .inr (by omega)

theorem IsBlockEnd.unique {balance : Int} {further e e' : Nat} {ls : List Line}
    (h : IsBlockEnd balance further ls e) (h' : IsBlockEnd balance further ls e') : e = e' := by
  -- neither end can lie in front of the other one
  have hle : ∀ {a b : Nat}, IsBlockEnd balance further ls a → IsBlockEnd balance further ls b →
      b ≤ a := by
    intro a b ha hb
    by_contra hlt
    have hopen := hb.first a ha.behind (by omega)
    rcases ha.last with hreturn | hend
    · omega
    · have := hb.within
      omega
  exact Nat.le_antisymm (hle h' h) (hle h h')

/-- The reader stops on line `j`, where `opened` says whether a bracket was opened before
the lines and `balance` is what they found open: all is closed again, or nothing was
opened and the line ends a statement. -/
def StopsAt (opened : Bool) (balance : Int) (ls : List Line) (j : Nat) : Prop :=
  (opened || opensBrace (window j ls)) = true ∧ balance + netDelta (window j ls) ≤ 0 ∨
    (opened || opensBrace (window j ls)) = false ∧ endsIn ';' ((ls.drop j).headD []) = true

/-- The reader stops in front of the last line of the header. -/
def StopsEarly (further : Nat) (ls : List Line) : Prop := ∃ j < further, StopsAt false 0 ls j

theorem stopsAt_succ_cons {opened : Bool} {balance : Int} {l : Line} {ls : List Line} {j : Nat} :
    StopsAt opened balance (l :: ls) (j + 1) ↔
      StopsAt (opened || decide (0 < (braceCount l).opens)) (balance + braceDelta l) ls j := by
  simp only [StopsAt, window_succ_cons, opensBrace_cons, netDelta_cons, Bool.or_assoc,
    Int.add_assoc, List.drop_succ_cons]

theorem braceExtentFrom_le_of_stopsAt {opened : Bool} {balance : Int} (read : Nat) {j : Nat}
    {ls : List Line} (hj : j < ls.length) (h : StopsAt opened balance ls j) :
    braceExtentFrom opened balance read ls ≤ read + j := by
  induction ls generalizing opened balance read j with
  | nil => simp at hj
  | cons l ls ih =>
    simp only [braceExtentFrom]
    split
    · omega
    · rename_i hgo
      split
      · omega
      · rename_i hgo'
        cases j with
        | zero =>
          -- the reader would have stopped on this line
          simp only [StopsAt, window_zero_cons, opensBrace_cons, opensBrace_nil, Bool.or_false,
            netDelta_cons, netDelta_nil, Int.add_zero, List.drop_zero, List.headD_cons] at h
          simp only [braceDelta] at h
          simp only [Bool.and_eq_true, decide_eq_true_eq, Bool.not_eq_true',
            Bool.or_eq_true] at hgo hgo'
          rcases h with ⟨hopen, hnet⟩ | ⟨hopen, hend⟩
          · exact absurd ⟨by simpa using hopen, hnet⟩ hgo
          · exact absurd ⟨hopen, .inl hend⟩ hgo'
        | succ j =>
          have hle := ih (read + 1) (by simpa using hj) (stopsAt_succ_cons.mp h)
          simp only [braceDelta] at hle
          omega

/-- Once a bracket is opened the reader finds the end of the block. -/
theorem exists_isBlockEnd_of_opened (balance : Int) (read : Nat) {ls : List Line}
    (hne : ls ≠ []) :
    ∃ e, IsBlockEnd balance 0 ls e ∧ braceExtentFrom true balance read ls = read + e := by
  induction ls generalizing balance read with
  | nil => exact absurd rfl hne
  | cons l ls ih =>
    simp only [braceExtentFrom, Bool.true_or, Bool.true_and, decide_eq_true_eq, Bool.not_true,
      Bool.false_and, Bool.false_eq_true, if_false]
    split
    · rename_i hreturn
      -- the block ends on this line
      refine ⟨0, ⟨Nat.le_refl 0, Nat.succ_pos _, fun j _ hlt => absurd hlt (Nat.not_lt_zero j), ?_⟩,
        rfl⟩
      simp only [window_zero_cons, netDelta_cons, netDelta_nil, Int.add_zero]
      exact .inl hreturn
    · rename_i hopen
      by_cases hnil : ls = []
      · -- the block is open, but this is the last line
        subst hnil
        refine ⟨0, ⟨Nat.le_refl 0, Nat.succ_pos _,
          fun j _ hlt => absurd hlt (Nat.not_lt_zero j), .inr rfl⟩, ?_⟩
        simp [braceExtentFrom]
      · obtain ⟨e, hend, heq⟩ := ih (balance + braceDelta l) (read + 1) hnil
        have hsucc := hend.succ
        refine ⟨e + 1, ⟨Nat.zero_le _, hsucc.within, fun j _ hlt => ?_, hsucc.last⟩, ?_⟩
        · cases j with
          | zero =>
            simp only [window_zero_cons, netDelta_cons, netDelta_nil, braceDelta]
            omega
          | succ j => exact hsucc.first _ (by omega) hlt
        · rw [braceDelta] at heq
          omega

/-- A block whose header ends on one of the lines has an end. -/
theorem IsBlockEnd.exists_of_lt (balance : Int) {further : Nat} {ls : List Line}
    (hlt : further < ls.length) : ∃ e, IsBlockEnd balance further ls e := by
  induction ls generalizing balance further with
  | nil => simp at hlt
  | cons l ls ih =>
    cases further with
    | zero =>
      obtain ⟨e, hend, -⟩ := exists_isBlockEnd_of_opened balance 0 (List.cons_ne_nil l ls)
      exact ⟨e, hend⟩
    | succ further =>
      obtain ⟨e, hend⟩ := ih (balance + braceDelta l) (by simpa using hlt)
      exact ⟨e + 1, hend.succ⟩

/-- A reader that does not stop in front of a line that opens a bracket finds the end of
the block from there on. -/
theorem exists_isBlockEnd (opened : Bool) (balance : Int) (read : Nat) {further : Nat}
    {ls : List Line} (hlt : further < ls.length)
    (hopens : 0 < (braceCount ((ls.drop further).headD [])).opens)
    (hnear : read + further ≤ maxLookahead) (hgoes : ∀ j < further, ¬ StopsAt opened balance ls j) :
    ∃ e, IsBlockEnd balance further ls e ∧
      braceExtentFrom opened balance read ls = read + e := by
  induction ls generalizing opened balance read further with
  | nil => simp at hlt
  | cons l ls ih =>
    cases further with
    | zero =>
      -- from here on the reader cannot tell whether a bracket was opened before
      obtain ⟨e, hend, heq⟩ :=
        exists_isBlockEnd_of_opened balance read (List.cons_ne_nil l ls)
      refine ⟨e, hend, ?_⟩
      rw [← heq]
      have hcount : decide (0 < (braceCount l).opens) = true := decide_eq_true hopens
      simp only [braceExtentFrom, hcount, Bool.or_true]
    | succ further =>
      have hfirst := hgoes 0 (Nat.succ_pos _)
      simp only [StopsAt, window_zero_cons, opensBrace_cons, opensBrace_nil, Bool.or_false,
        netDelta_cons, netDelta_nil, Int.add_zero, List.drop_zero, List.headD_cons, not_or,
        not_and, braceDelta] at hfirst
      obtain ⟨hopen, hsemicolon⟩ := hfirst
      -- the reader goes on behind the first line, so it takes neither of its two exits
      obtain ⟨e, hend, heq⟩ := ih (opened || decide (0 < (braceCount l).opens))
        (balance + braceDelta l) (read + 1) (by simpa using hlt) (by simpa using hopens) (by omega)
        (fun j hj hstop => hgoes (j + 1) (by omega) (stopsAt_succ_cons.mpr hstop))
      refine ⟨e + 1, hend.succ, ?_⟩
      simp only [braceExtentFrom]
      rw [if_neg, if_neg]
      · rw [braceDelta] at heq
        omega
      · simp only [Bool.and_eq_true, Bool.not_eq_true', Bool.or_eq_true, decide_eq_true_eq, not_and,
          not_or]
        intro hclosed
        exact ⟨hsemicolon hclosed, by omega⟩
      · simp only [Bool.and_eq_true, decide_eq_true_eq, not_and]
        exact hopen

/-! ## Any block -/

theorem braceDelta_le_zero_of_opens {l : Line} (h : ¬ 0 < (braceCount l).opens) :
    braceDelta l ≤ 0 := by
  simp only [braceDelta, BraceCount.delta]
  omega

/-- Lines that open no bracket leave none open. -/
theorem netDelta_le_zero_of_opensBrace {ls : List Line} (h : opensBrace ls = false) :
    netDelta ls ≤ 0 := by
  induction ls with
  | nil => exact Int.le_refl 0
  | cons l ls ih =>
    rw [opensBrace_cons, Bool.or_eq_false_iff, decide_eq_false_iff_not] at h
    have hl := braceDelta_le_zero_of_opens h.1
    have hls := ih h.2
    rw [netDelta_cons]
    omega

theorem netDelta_take_braceExtentFrom (read ls : List Line) (hne : read ++ ls ≠ []) :
    netDelta ((read ++ ls).take
        (braceExtentFrom (opensBrace read) (netDelta read) read.length ls + 1)) ≤ 0 ∨
      braceExtentFrom (opensBrace read) (netDelta read) read.length ls + 1
        = (read ++ ls).length := by
  -- the lines move one by one to those that were read before
  induction ls generalizing read with
  | nil =>
    rw [List.append_nil] at hne ⊢
    have hpos : 0 < read.length := List.length_pos_iff.mpr hne
    simp only [braceExtentFrom]
    split
    · exact .inr (by omega)
    · rename_i hclosed
      -- no line opened a bracket, so the first one did not
      obtain ⟨l, ls, rfl⟩ := List.exists_cons_of_ne_nil hne
      rw [Bool.not_eq_true, opensBrace_cons, Bool.or_eq_false_iff,
        decide_eq_false_iff_not] at hclosed
      refine .inl ?_
      rw [List.take_succ_cons, List.take_zero, netDelta_cons, netDelta_nil, Int.add_zero]
      exact braceDelta_le_zero_of_opens hclosed.1
  | cons l ls ih =>
    have htake : (read ++ l :: ls).take (read.length + 1) = read ++ [l] := by
      rw [List.take_length_add_append, List.take_succ_cons, List.take_zero]
    have hopens : opensBrace (read ++ [l])
        = (opensBrace read || decide (0 < (braceCount l).opens)) := by
      simp [opensBrace]
    have hnet : netDelta (read ++ [l]) = netDelta read + (braceCount l).delta := by
      rw [netDelta_append, netDelta_cons, netDelta_nil, Int.add_zero]
      rfl
    simp only [braceExtentFrom]
    rw [← hopens, ← hnet]
    split
    · rename_i hreturn
      rw [Bool.and_eq_true, decide_eq_true_eq] at hreturn
      rw [htake]
      exact .inl hreturn.2
    · split
      · rename_i hclosed
        -- the reader gave up before any bracket was opened
        rw [Bool.and_eq_true, Bool.not_eq_true'] at hclosed
        rw [htake]
        exact .inl (netDelta_le_zero_of_opensBrace hclosed.1)
      · have hrest := ih (read ++ [l]) (by simp)
        rw [List.length_append, List.length_singleton, List.append_assoc,
          List.singleton_append] at hrest
        exact hrest

/-- Behind the extent of a block no bracket is left open, or no line is left. -/
theorem netDelta_window_braceExtent {ls : List Line} (hne : ls ≠ []) :
    netDelta (window (braceExtent ls) ls) ≤ 0 ∨ braceExtent ls + 1 = ls.length :=
  netDelta_take_braceExtentFrom [] ls hne

/-! ## Functions with a block -/

namespace Brace

variable {further clip extent : Nat} {ls : List Line}

/-- Does the last line of a header that takes `further` lines more open a bracket? -/
def OpensBody (further : Nat) (ls : List Line) : Prop :=
  0 < (braceCount ((ls.drop further).headD [])).opens

/-- A function reaches to the end of its block, or no further than its header where the
reader stopped before that. -/
theorem blockExtent_eq_or_isBlockEnd (hlt : further < ls.length) (hnear : further ≤ maxLookahead)
    (hopens : OpensBody further ls) :
    StopsEarly further ls ∧ blockExtent further ls = further ∨
      ¬ StopsEarly further ls ∧ IsBlockEnd 0 further ls (blockExtent further ls) := by
  have hne : (braceCount ((ls.drop further).headD [])).opens ≠ 0 := Nat.ne_of_gt hopens
  simp only [blockExtent, if_neg hne]
  by_cases hearly : StopsEarly further ls
  · obtain ⟨j, hj, hstop⟩ := hearly
    have hle := braceExtentFrom_le_of_stopsAt 0 (by omega) hstop
    refine .inl ⟨⟨j, hj, hstop⟩, ?_⟩
    simp only [braceExtent]
    omega
  · obtain ⟨e, hend, heq⟩ := exists_isBlockEnd false 0 0 hlt hopens (by omega)
      (fun j hj hstop => hearly ⟨j, hj, hstop⟩)
    refine .inr ⟨hearly, ?_⟩
    have hbehind := hend.behind
    have hmax : max (braceExtent ls) further = e := by
      simp only [braceExtent]
      omega
    rw [hmax]
    exact hend

/-- The extent ends where the block ends, or on the last line that it may have. -/
def EndsWithBlock (further clip : Nat) (ls : List Line) (extent : Nat) : Prop :=
  ∃ e, IsBlockEnd 0 further ls e ∧ extent = min e clip

/-- The extent of a function ends where its block ends, unless the reader stopped in front
of the last line of the header and the block does not end on that line anyway. -/
theorem endsWithBlock_iff (hlt : further < ls.length) (hnear : further ≤ maxLookahead)
    (hopens : OpensBody further ls) (hclip : clip < ls.length) :
    EndsWithBlock further clip ls (min (blockExtent further ls) clip) ↔
      ¬ StopsEarly further ls ∨ netDelta (window further ls) ≤ 0 ∨ clip ≤ further := by
  -- the extent is that of the header, or it is the end of the block
  rcases blockExtent_eq_or_isBlockEnd hlt hnear hopens with ⟨hearly, heq⟩ | ⟨hgoes, hend⟩
  · constructor
    · rintro ⟨e, hend, hmin⟩
      rw [heq] at hmin
      have hbehind := hend.behind
      by_cases hclip' : clip ≤ further
      · exact .inr (.inr hclip')
      · -- then the block ends on the last line of the header
        have he : e = further := by omega
        subst he
        rcases hend.last with hreturn | hlast
        · exact .inr (.inl (by omega))
        · exact absurd hlast (by omega)
    · rintro (hgoes | hreturn | hclip')
      · exact absurd hearly hgoes
      · refine ⟨further, ⟨Nat.le_refl _, hlt, fun j hj hlt => absurd hlt (by omega), ?_⟩,
          by rw [heq]⟩
        exact .inl (by omega)
      · -- whatever the end of the block is, it is clipped
        obtain ⟨e, hend⟩ := IsBlockEnd.exists_of_lt 0 hlt
        exact ⟨e, hend, by have := hend.behind; omega⟩
  · exact ⟨fun _ => .inl hgoes, fun _ => ⟨_, hend, rfl⟩⟩

end Brace

end CodeAtlas
