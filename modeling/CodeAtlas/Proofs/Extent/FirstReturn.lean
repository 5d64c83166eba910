/-
What the reader of blocks answers.

At first the reader waits for a line that opens a bracket. Meanwhile it gives up on the first line
that ends a statement, and on the last line that it may look at. Once a bracket is opened it no
longer gives up, and looks for the first line behind which no bracket is left open. So the lines
from the first one on begin with lines over which the reader waits (`Waits`), and behind these the
file ends, the reader gives up, or a bracket is opened: `Course`.

The answer is stated without the reader, by the lines of the file alone. A line on which the
brackets return is told by the sum over all lines up to it (`ReturnsAt`), and so is a line on which
there is nothing to wait for any more (`GivesUpAt`). The answer is the first line of the one kind or
of the other, and each of the three cases has its own (`braceExtent_firstReturn`).
-/
import CodeAtlas.Proofs.Extent.Return
import Mathlib.Order.Bounds.Basic

set_option autoImplicit false

namespace CodeAtlas

variable {file ls quiet more rest : List Line} {l : Line} {start read j k : Nat}

/-! ## Lines of a file -/

/-- The lines `start` to `j`. -/
def linesTo (file : List Line) (start j : Nat) : List Line := window (j - start) (file.drop start)

theorem linesTo_add (file : List Line) (start k : Nat) :
    linesTo file start (start + k) = window k (file.drop start) := by
  rw [linesTo, Nat.add_sub_cancel_left]

/-- Line `j` opens a bracket. -/
def OpensAt (file : List Line) (j : Nat) : Prop :=
  ∃ l, file[j]? = some l ∧ 0 < (braceCount l).opens

/-- From line `start` on a bracket was opened, and behind line `j` none is left open. -/
structure ReturnsAt (file : List Line) (start j : Nat) : Prop where
  behind : start ≤ j
  within : j < file.length
  opened : opensBrace (linesTo file start j) = true
  closed : netDelta (linesTo file start j) ≤ 0

/-- From line `start` on no bracket was opened, and line `j` ends a statement or is the last one
to look at. -/
structure GivesUpAt (file : List Line) (start j : Nat) : Prop where
  behind : start ≤ j
  within : j < file.length
  unopened : opensBrace (linesTo file start j) = false
  stops : (∃ l, file[j]? = some l ∧ endsIn ';' l = true) ∨ j = start + maxLookahead

theorem opensBrace_eq_false_iff : opensBrace ls = false ↔ ∀ l ∈ ls, ¬ 0 < (braceCount l).opens := by
  rw [opensBrace, List.any_eq_false]
  simp only [decide_eq_true_eq]

theorem opensBrace_of_mem (hl : l ∈ ls) (hopens : 0 < (braceCount l).opens) :
    opensBrace ls = true :=
  List.any_eq_true.mpr ⟨l, hl, decide_eq_true hopens⟩

/-- A window that reaches behind some lines holds the line that follows them. -/
theorem mem_window_append_cons (hk : quiet.length ≤ k) : l ∈ window k (quiet ++ l :: rest) := by
  obtain ⟨n, rfl⟩ := Nat.exists_eq_add_of_le hk
  rw [window, Nat.add_assoc, List.take_length_add_append, List.take_succ_cons]
  exact List.mem_append_right quiet List.mem_cons_self

/-! ## Waiting -/

/-- Behind `read` lines the reader waits over these lines: none of them opens a bracket or ends a
statement, and none is the last one to look at. -/
structure Waits (read : Nat) (quiet : List Line) : Prop where
  unopened : opensBrace quiet = false
  unended : ∀ l ∈ quiet, endsIn ';' l = false
  near : read + quiet.length ≤ maxLookahead

theorem waits_cons_iff : Waits read (l :: quiet) ↔ ¬ 0 < (braceCount l).opens ∧
    endsIn ';' l = false ∧ read < maxLookahead ∧ Waits (read + 1) quiet := by
  constructor
  · rintro ⟨hopen, hend, hnear⟩
    rw [opensBrace_cons, Bool.or_eq_false_iff, decide_eq_false_iff_not] at hopen
    obtain ⟨hl, hmore⟩ := List.forall_mem_cons.mp hend
    rw [List.length_cons] at hnear
    exact ⟨hopen.1, hl, by omega, ⟨hopen.2, hmore, by omega⟩⟩
  · rintro ⟨hopen, hl, -, hmore⟩
    have hnear := hmore.near
    refine ⟨?_, List.forall_mem_cons.mpr ⟨hl, hmore.unended⟩, ?_⟩
    · rw [opensBrace_cons, decide_eq_false hopen, hmore.unopened, Bool.or_false]
    · rw [List.length_cons]
      omega

/-- The reader takes nothing along from lines over which it waits but their balance. -/
theorem Waits.braceExtentFrom_append (h : Waits read quiet) (balance : Int) (ls : List Line) :
    braceExtentFrom false balance read (quiet ++ ls) =
      braceExtentFrom false (balance + netDelta quiet) (read + quiet.length) ls := by
  induction quiet generalizing balance read with
  | nil => rw [netDelta_nil, Int.add_zero, List.length_nil, Nat.add_zero, List.nil_append]
  | cons l quiet ih =>
    obtain ⟨hopen, hend, hnear, hmore⟩ := waits_cons_iff.mp h
    have hstays : ¬ (maxLookahead ≤ read) := by omega
    -- neither of the two exits is taken on this line
    have hgoes : braceExtentFrom false balance read (l :: (quiet ++ ls)) =
        braceExtentFrom false (balance + braceDelta l) (read + 1) (quiet ++ ls) := by
      simp only [braceExtentFrom, hopen, hend, hstays, decide_false, Bool.or_self, Bool.false_and,
        Bool.false_eq_true, if_false, Bool.and_false, braceDelta]
    rw [List.cons_append, hgoes, ih hmore, netDelta_cons, List.length_cons, Int.add_assoc]
    congr 1
    omega

/-- What follows the lines over which the reader waits. -/
inductive Course (read : Nat) : List Line → Prop where
  | ends {quiet : List Line} : Waits read quiet → Course read quiet
  | givesUp {quiet rest : List Line} {l : Line} : Waits read quiet →
      ¬ 0 < (braceCount l).opens → endsIn ';' l = true ∨ read + quiet.length = maxLookahead →
      Course read (quiet ++ l :: rest)
  | opens {quiet rest : List Line} {l : Line} : Waits read quiet →
      0 < (braceCount l).opens → Course read (quiet ++ l :: rest)

theorem Waits.nil (h : read ≤ maxLookahead) : Waits read [] where
  unopened := rfl
  unended := by simp
  near := h

theorem course (h : read ≤ maxLookahead) (ls : List Line) : Course read ls := by
  induction ls generalizing read with
  | nil => exact .ends (.nil h)
  | cons l ls ih =>
    by_cases hopens : 0 < (braceCount l).opens
    · show Course read ([] ++ l :: ls)
      exact .opens (.nil h) hopens
    · by_cases hstops : endsIn ';' l = true ∨ read = maxLookahead
      · show Course read ([] ++ l :: ls)
        exact .givesUp (.nil h) hopens hstops
      · rw [not_or, Bool.not_eq_true] at hstops
        have hnear : read < maxLookahead := by omega
        -- the reader waits over this line too
        have hfirst : ∀ {quiet}, Waits (read + 1) quiet → Waits read (l :: quiet) := fun hwaits =>
          waits_cons_iff.mpr ⟨hopens, hstops.1, hnear, hwaits⟩
        cases ih hnear with
        | ends hwaits => exact .ends (hfirst hwaits)
        | @givesUp quiet rest l' hwaits hl hend =>
          show Course read ((l :: quiet) ++ l' :: rest)
          refine .givesUp (hfirst hwaits) hl (hend.imp_right fun heq => ?_)
          rw [List.length_cons]
          omega
        | @opens quiet rest l' hwaits hl =>
          show Course read ((l :: quiet) ++ l' :: rest)
          exact .opens (hfirst hwaits) hl

/-! ## The three answers -/

theorem Waits.braceExtent_eq (h : Waits 0 quiet) : braceExtent quiet = 0 := by
  have hread := h.braceExtentFrom_append 0 []
  rw [List.append_nil] at hread
  rw [braceExtent, hread]
  rfl

theorem Waits.braceExtent_givesUp (h : Waits 0 quiet) (hl : ¬ 0 < (braceCount l).opens)
    (hstops : endsIn ';' l = true ∨ quiet.length = maxLookahead) (rest : List Line) :
    braceExtent (quiet ++ l :: rest) = quiet.length := by
  have hgives : (endsIn ';' l || decide (maxLookahead ≤ 0 + quiet.length)) = true := by
    rw [Bool.or_eq_true, decide_eq_true_eq]
    exact hstops.imp_right fun heq => by omega
  rw [braceExtent, h.braceExtentFrom_append]
  simp only [braceExtentFrom, hl, decide_false, Bool.or_self, Bool.false_and, Bool.false_eq_true,
    if_false, Bool.not_false, Bool.true_and, hgives, if_true]
  exact Nat.zero_add _

/-- Up to a line over which the reader waits, no bracket is opened. -/
theorem Waits.opensBrace_window (h : Waits read quiet) (hk : k < quiet.length) (more : List Line) :
    opensBrace (window k (quiet ++ more)) = false := by
  rw [window, List.take_append_of_le_length hk]
  exact opensBrace_eq_false_iff.mpr fun m hm =>
    opensBrace_eq_false_iff.mp h.unopened m (List.mem_of_mem_take hm)

/-- From the first bracket on, the reader finds the end of the block. -/
theorem Waits.isBlockEnd (h : Waits 0 quiet) (hl : 0 < (braceCount l).opens) (rest : List Line) :
    IsBlockEnd 0 quiet.length (quiet ++ l :: rest) (braceExtent (quiet ++ l :: rest)) := by
  have hlt : quiet.length < (quiet ++ l :: rest).length := by
    rw [List.length_append, List.length_cons]
    omega
  have hopens : 0 < (braceCount (((quiet ++ l :: rest).drop quiet.length).headD [])).opens := by
    rwa [List.drop_left]
  have hgoes : ∀ j < quiet.length, ¬ StopsAt false 0 (quiet ++ l :: rest) j := by
    intro j hj hstop
    rw [StopsAt, h.opensBrace_window hj] at hstop
    rcases hstop with ⟨hfalse, -⟩ | ⟨-, hend⟩
    · cases hfalse
    · have hmem : ((quiet ++ l :: rest).drop j).headD [] ∈ quiet := by
        rw [List.drop_append_of_le_length (Nat.le_of_lt hj), List.drop_eq_getElem_cons hj]
        exact List.getElem_mem hj
      rw [h.unended _ hmem] at hend
      cases hend
  obtain ⟨e, hend, heq⟩ := exists_isBlockEnd false 0 0 hlt hopens h.near hgoes
  rw [braceExtent, heq, Nat.zero_add]
  exact hend

/-! ## Where the lines of a file are -/

section

variable (hdrop : file.drop start = quiet ++ more)

include hdrop

theorem getElem?_of_drop_eq (k : Nat) : file[start + k]? = (quiet ++ more)[k]? := by
  rw [← hdrop, List.getElem?_drop]

theorem Waits.not_opensAt (h : Waits 0 quiet) (hk : k < quiet.length) :
    ¬ OpensAt file (start + k) := by
  rintro ⟨m, hm, hopens⟩
  rw [getElem?_of_drop_eq hdrop, List.getElem?_append_left hk] at hm
  exact opensBrace_eq_false_iff.mp h.unopened m (List.mem_of_getElem? hm) hopens

theorem Waits.not_givesUpAt (h : Waits 0 quiet) (hk : k < quiet.length) :
    ¬ GivesUpAt file start (start + k) := by
  rintro ⟨-, -, -, ⟨m, hm, hend⟩ | hlast⟩
  · rw [getElem?_of_drop_eq hdrop, List.getElem?_append_left hk] at hm
    rw [h.unended m (List.mem_of_getElem? hm)] at hend
    cases hend
  · have hnear := h.near
    omega

theorem Waits.not_returnsAt (h : Waits 0 quiet) (hk : k < quiet.length) :
    ¬ ReturnsAt file start (start + k) := by
  rintro ⟨-, -, hopened, -⟩
  rw [linesTo_add, hdrop, h.opensBrace_window hk] at hopened
  cases hopened

end

/-- Where the reader waits to the end of the file, no bracket is opened, and it does not give up. -/
theorem Waits.nothing_happens (hdrop : file.drop start = quiet) (h : Waits 0 quiet) :
    (∀ j, start ≤ j → ¬ OpensAt file j) ∧ ∀ j, ¬ GivesUpAt file start j := by
  have hquiet : file.drop start = quiet ++ [] := by rw [hdrop, List.append_nil]
  have hlength := congrArg List.length hdrop
  rw [List.length_drop] at hlength
  constructor
  · intro j hj hopens
    obtain ⟨k, rfl⟩ := Nat.exists_eq_add_of_le hj
    have hlt : start + k < file.length := by
      obtain ⟨l, hl, -⟩ := hopens
      exact (List.getElem?_eq_some_iff.mp hl).1
    exact h.not_opensAt hquiet (by omega) hopens
  · intro j hgives
    obtain ⟨k, rfl⟩ := Nat.exists_eq_add_of_le hgives.behind
    have hlt := hgives.within
    exact h.not_givesUpAt hquiet (by omega) hgives

/-! ## The first line of a kind -/

section

variable (hdrop : file.drop start = quiet ++ l :: rest)

include hdrop

theorem length_of_drop_eq : file.length = start + (quiet.length + (rest.length + 1)) := by
  have hlength := congrArg List.length hdrop
  rw [List.length_drop, List.length_append, List.length_cons] at hlength
  omega

theorem getElem?_behind_quiet : file[start + quiet.length]? = some l := by
  rw [getElem?_of_drop_eq hdrop, List.getElem?_append_right (Nat.le_refl _), Nat.sub_self]
  rfl

/-- The reader gives up on the first line on which it can. -/
theorem Waits.isLeast_givesUpAt (h : Waits 0 quiet) (hl : ¬ 0 < (braceCount l).opens)
    (hstops : endsIn ';' l = true ∨ quiet.length = maxLookahead) :
    IsLeast {j | GivesUpAt file start j} (start + quiet.length) := by
  have hlength := length_of_drop_eq hdrop
  constructor
  · refine ⟨Nat.le_add_right _ _, by omega, ?_, ?_⟩
    · rw [linesTo_add, hdrop, window, List.take_length_add_append, List.take_succ_cons,
        List.take_zero]
      refine opensBrace_eq_false_iff.mpr (List.forall_mem_append.mpr ⟨?_, ?_⟩)
      · exact opensBrace_eq_false_iff.mp h.unopened
      · exact List.forall_mem_singleton.mpr hl
    · exact hstops.imp (fun hend => ⟨l, getElem?_behind_quiet hdrop, hend⟩) fun heq => by omega
  · intro j hj
    obtain ⟨k, rfl⟩ := Nat.exists_eq_add_of_le hj.behind
    by_contra hlt
    exact h.not_givesUpAt hdrop (by omega) hj

/-- A line on which the reader gave up stands in front of all lines that open a bracket. -/
theorem Waits.lt_of_opensAt (h : Waits 0 quiet) (hl : ¬ 0 < (braceCount l).opens)
    (hj : start ≤ j) (hopens : OpensAt file j) : start + quiet.length < j := by
  obtain ⟨k, rfl⟩ := Nat.exists_eq_add_of_le hj
  by_contra hle
  by_cases hk : k < quiet.length
  · exact h.not_opensAt hdrop hk hopens
  · -- it is not the line itself either
    obtain rfl : k = quiet.length := by omega
    obtain ⟨m, hm, hopens⟩ := hopens
    rw [getElem?_behind_quiet hdrop] at hm
    exact hl (Option.some.inj hm ▸ hopens)

/-- From the line that opens a bracket on, a bracket was opened. -/
theorem opensBrace_linesTo (hl : 0 < (braceCount l).opens) (hk : quiet.length ≤ k) :
    opensBrace (linesTo file start (start + k)) = true := by
  rw [linesTo_add, hdrop]
  exact opensBrace_of_mem (mem_window_append_cons hk) hl

/-- Once a bracket was opened the reader does not give up. -/
theorem Waits.not_givesUpAt_of_opens (h : Waits 0 quiet) (hl : 0 < (braceCount l).opens) (j : Nat) :
    ¬ GivesUpAt file start j := by
  intro hgives
  obtain ⟨k, rfl⟩ := Nat.exists_eq_add_of_le hgives.behind
  by_cases hk : k < quiet.length
  · exact h.not_givesUpAt hdrop hk hgives
  · have hopened := hgives.unopened
    rw [opensBrace_linesTo hdrop hl (by omega)] at hopened
    cases hopened

theorem Waits.isBlockEnd_drop (h : Waits 0 quiet) (hl : 0 < (braceCount l).opens) :
    IsBlockEnd 0 quiet.length (file.drop start) (braceExtent (file.drop start)) := by
  rw [hdrop]
  exact h.isBlockEnd hl rest

/-- In front of the end of the block the brackets do not return. -/
theorem Waits.not_returnsAt_of_lt (h : Waits 0 quiet) (hl : 0 < (braceCount l).opens)
    (hk : k < braceExtent (file.drop start)) : ¬ ReturnsAt file start (start + k) := by
  intro hreturns
  by_cases hquiet : k < quiet.length
  · exact h.not_returnsAt hdrop hquiet hreturns
  · have hopen := (h.isBlockEnd_drop hdrop hl).first k (by omega) hk
    have hclosed := hreturns.closed
    rw [linesTo_add] at hclosed
    omega

/-- Behind the first bracket, the answer is the first line on which the brackets return. -/
theorem Waits.isLeast_returnsAt (h : Waits 0 quiet) (hl : 0 < (braceCount l).opens) :
    IsLeast {j | ReturnsAt file start j} (start + braceExtent (file.drop start)) ∨
      (∀ j, ¬ ReturnsAt file start j) ∧
        start + braceExtent (file.drop start) + 1 = file.length := by
  have hend := h.isBlockEnd_drop hdrop hl
  have hwithin := hend.within
  rw [List.length_drop] at hwithin
  -- either the brackets return on the line that was found, or the file ends with it
  by_cases hclosed : netDelta (window (braceExtent (file.drop start)) (file.drop start)) ≤ 0
  · refine .inl ⟨⟨Nat.le_add_right _ _, by omega, opensBrace_linesTo hdrop hl hend.behind, ?_⟩, ?_⟩
    · rwa [linesTo_add]
    · intro j hj
      obtain ⟨k, rfl⟩ := Nat.exists_eq_add_of_le hj.behind
      by_contra hlt
      exact h.not_returnsAt_of_lt hdrop hl (by omega) hj
  · -- the block is open to the last line
    have hlast := hend.last.resolve_left (by omega)
    rw [List.length_drop] at hlast
    refine .inr ⟨fun j hj => ?_, by omega⟩
    obtain ⟨k, rfl⟩ := Nat.exists_eq_add_of_le hj.behind
    have hfile := hj.within
    by_cases hk : k < braceExtent (file.drop start)
    · exact h.not_returnsAt_of_lt hdrop hl hk hj
    · obtain rfl : k = braceExtent (file.drop start) := by omega
      have hreturned := hj.closed
      rw [linesTo_add] at hreturned
      exact hclosed hreturned

end

/-! ## The answer -/

/-- The block that begins on a line ends on a line from there on. If a line opens a bracket before
the reader gives up, that is the first line behind which no bracket is left open, or the last line
of the file if there is none. If the reader gives up first, it is the first line on which it does.
And if the file ends before either, it is the line that the block begins on. -/
theorem braceExtent_firstReturn (h : start < file.length) :
    let stop := start + braceExtent (file.drop start)
    (start ≤ stop ∧ stop < file.length) ∧
      ((∃ j, start ≤ j ∧ OpensAt file j ∧ ∀ i < j, ¬ GivesUpAt file start i) →
        IsLeast {j | ReturnsAt file start j} stop ∨
          (∀ j, ¬ ReturnsAt file start j) ∧ stop + 1 = file.length) ∧
      ((∃ j, GivesUpAt file start j) → IsLeast {j | GivesUpAt file start j} stop) ∧
      ((∀ j, start ≤ j → ¬ OpensAt file j) → (∀ j, ¬ GivesUpAt file start j) → stop = start) := by
  intro stop
  have hlt : braceExtent (file.drop start) < (file.drop start).length := by
    refine braceExtent_lt (List.ne_nil_of_length_pos ?_)
    rw [List.length_drop]
    omega
  rw [List.length_drop] at hlt
  refine ⟨⟨Nat.le_add_right _ _, by omega⟩, ?_⟩
  have hcourse := course (Nat.zero_le maxLookahead) (file.drop start)
  generalize hdrop : file.drop start = ls at hcourse
  -- the reader does one of three things: it comes to the end, gives up, or finds a bracket
  cases hcourse with
  | ends hwaits =>
    obtain ⟨hclosed, hnever⟩ := hwaits.nothing_happens hdrop
    have heq : stop = start := by
      rw [show stop = start + braceExtent (file.drop start) from rfl, hdrop, hwaits.braceExtent_eq,
        Nat.add_zero]
    refine ⟨?_, ?_, fun _ _ => heq⟩
    · rintro ⟨j, hj, hopens, -⟩
      exact absurd hopens (hclosed j hj)
    · rintro ⟨j, hgives⟩
      exact absurd hgives (hnever j)
  | @givesUp quiet rest l hwaits hl hstops =>
    rw [Nat.zero_add] at hstops
    have hleast := hwaits.isLeast_givesUpAt hdrop hl hstops
    have heq : stop = start + quiet.length := by
      rw [show stop = start + braceExtent (file.drop start) from rfl, hdrop,
        hwaits.braceExtent_givesUp hl hstops]
    refine ⟨?_, fun _ => heq ▸ hleast, fun _ hnever => absurd hleast.1 (hnever _)⟩
    rintro ⟨j, hj, hopens, hbefore⟩
    exact absurd hleast.1 (hbefore _ (hwaits.lt_of_opensAt hdrop hl hj hopens))
  | @opens quiet rest l hwaits hl =>
    have hopens : OpensAt file (start + quiet.length) := ⟨l, getElem?_behind_quiet hdrop, hl⟩
    refine ⟨fun _ => hwaits.isLeast_returnsAt hdrop hl, ?_, fun hnever => ?_⟩
    · rintro ⟨j, hj⟩
      exact absurd hj (hwaits.not_givesUpAt_of_opens hdrop hl j)
    · exact absurd hopens (hnever _ (Nat.le_add_right _ _))

/-- An inner block, with a bracket in a literal, ends in front of the outer one. -/
theorem braceExtent_firstReturn_innerBlock :
    let file := ["function a() \x7b".toList, "  if (x) \x7b".toList, "    y('\x7d');".toList,
      "  \x7d".toList, "\x7d".toList]
    1 < file.length ∧ (∃ j, 1 ≤ j ∧ OpensAt file j ∧ ∀ i < j, ¬ GivesUpAt file 1 i) ∧
      IsLeast {j | ReturnsAt file 1 j} 3 := by
  intro file
  have hopens : ∃ j, 1 ≤ j ∧ OpensAt file j ∧ ∀ i < j, ¬ GivesUpAt file 1 i := by
    refine ⟨1, Nat.le_refl 1, ⟨"  if (x) \x7b".toList, rfl, by decide⟩, fun i hi hgives => ?_⟩
    exact absurd hgives.behind (by omega)
  have hreturns : ReturnsAt file 1 3 := ⟨by decide, by decide, by decide, by decide⟩
  have hstop : 1 + braceExtent (file.drop 1) = 3 := by decide
  have hinside : 1 < file.length := by decide
  have hanswer := (braceExtent_firstReturn hinside).2.1 hopens
  rw [hstop] at hanswer
  exact ⟨hinside, hopens, hanswer.resolve_right fun hnone => hnone.1 3 hreturns⟩

end CodeAtlas
