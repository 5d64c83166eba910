/-
The scan as a loop.

`Scan.itemsFrom` is a recursion on the lines that are left. Here the same scan is a
machine: a `Moment` holds the state, the index of the line that is to be read and
what has been recorded, and `Moment.next` is one call of a handler. Two things are
proved about it. The machine records what the recursion records
(`scanLines_eq_ofItems`), because what a moment has recorded and what the recursion
still finds from there make one list that no call changes. And what holds in front of
the first line and survives each call holds at every moment (`Reached.invariant`),
which is how laws about whole scans are proved.
-/
import CodeAtlas.Proofs.Outline.Items
import CodeAtlas.Proofs.Scan.BraceStep
import CodeAtlas.Proofs.Scan.IndentStep
import CodeAtlas.Scan.Build

set_option autoImplicit false

namespace CodeAtlas

/-! ## What a call returns -/

namespace Scan

/-- A call outside classes finishes its line, and no line behind the last one. -/
theorem exists_outsideStep_eq_done (s : Scan) (at_ : Nat) {ls : List Line} (hne : ls ≠ []) :
    ∃ s' items further, s.outsideStep at_ ls = .done s' items further ∧
      further < ls.length := by
  unfold outsideStep
  cases s.family with
  | brace => exact (Brace.outsideStep_cases s at_ ls).exists_done hne
  | indent => exact (Indent.outsideStep_cases s at_ ls).exists_done hne

/-- Any call finishes its line, or leaves a class and its line to be read again. -/
theorem step_cases (s : Scan) (at_ : Nat) {ls : List Line} (hne : ls ≠ []) :
    (∃ s' items further, s.step at_ ls = .done s' items further ∧ further < ls.length) ∨
      (s.scope.isSome = true ∧
        ∃ s' items, s.step at_ ls = .again s' items ∧ s'.scope = none) := by
  cases hscope : s.scope with
  | none =>
    simp only [step, hscope]
    exact .inl (exists_outsideStep_eq_done s at_ hne)
  | some c =>
    simp only [step, hscope, insideStep]
    cases s.family with
    | brace =>
      have hlt := ((Brace.insideLine_cases s c at_ ls).frame hne).2.2.2.2
      simp only [Brace.insideStep_eq]
      split <;> exact .inl ⟨_, _, _, rfl, hlt⟩
    | indent =>
      rcases (Indent.insideStep_cases s c at_ ls).done_or_again hne with h | ⟨items, h⟩
      · exact .inl h
      · exact .inr ⟨rfl, _, items, h, rfl⟩

/-! ## The recursion, call by call -/

variable {s s' : Scan} {at_ further : Nat} {ls : List Line} {items : List Item}

theorem itemsFrom_of_done (hne : ls ≠ []) (h : s.step at_ ls = .done s' items further) :
    s.itemsFrom at_ ls = items ++ s'.itemsFrom (at_ + further + 1) (ls.drop (further + 1)) := by
  obtain ⟨l, ls, rfl⟩ := List.exists_cons_of_ne_nil hne
  rw [itemsFrom]
  simp only [advance, h, List.drop_succ_cons]

theorem itemsFrom_of_again (hne : ls ≠ []) (h : s.step at_ ls = .again s' items)
    (hscope : s'.scope = none) : s.itemsFrom at_ ls = items ++ s'.itemsFrom at_ ls := by
  -- the line is read again at once, and that call finishes it
  obtain ⟨t, more, further, houtside, -⟩ := exists_outsideStep_eq_done s' at_ hne
  have hstep : s'.step at_ ls = .done t more further := by
    simp only [step, hscope]
    exact houtside
  rw [itemsFrom_of_done hne hstep]
  obtain ⟨l, ls, rfl⟩ := List.exists_cons_of_ne_nil hne
  rw [itemsFrom]
  simp only [advance, h, houtside, List.append_assoc, List.drop_succ_cons]

end Scan

/-! ## Moments -/

/-- Where a scan stands between two calls of a handler: the line with the index is to be
read, and the items have been recorded. -/
structure Moment where
  scan : Scan
  index : Nat := 0
  items : List Item := []

namespace Moment

def start (path : String) (family : Family) : Moment := { scan := { path, family } }

/-- The moment behind what a call made of the line at the index. -/
def follow (m : Moment) : Step → Moment
  | .done s items further =>
    { scan := s, index := m.index + further + 1, items := m.items ++ items }
  | .again s items => { scan := s, index := m.index, items := m.items ++ items }

/-- One call of a handler, for the line at the index. -/
def next (file : List Line) (m : Moment) : Moment :=
  m.follow (m.scan.step m.index (file.drop m.index))

/-- Behind at most `calls` calls; the loop ends where no line is left. -/
def after (file : List Line) : Nat → Moment → Moment
  | 0, m => m
  | calls + 1, m => if m.index < file.length then after file calls (m.next file) else m

/-- What has been recorded, with the class that is still open. -/
def allItems (m : Moment) : List Item := m.items ++ (m.scan.scope.map Item.closed).toList

/-- The moments of the loop that begins at `first`. -/
inductive Reached (file : List Line) (first : Moment) : Moment → Prop where
  | first : Reached file first first
  | next {m : Moment} : Reached file first m → m.index < file.length →
      Reached file first (m.next file)

variable {file : List Line} {first m : Moment}

/-- What holds at the first moment and survives each call holds at every moment. -/
theorem Reached.invariant {I : Moment → Prop} (h : Reached file first m) (hfirst : I first)
    (hnext : ∀ m, I m → m.index < file.length → I (m.next file)) : I m := by
  induction h with
  | first => exact hfirst
  | next _ hlt ih => exact hnext _ ih hlt

namespace Reached

variable {m' m'' : Moment}

theorem trans (h : Reached file m m') (h' : Reached file m' m'') : Reached file m m'' := by
  induction h' with
  | first => exact h
  | next _ hlt ih => exact ih.next hlt

/-- A moment that is reached is the one at hand, or is reached from the next one. -/
theorem eq_or_next (h : Reached file m m') :
    m' = m ∨ (m.index < file.length ∧ Reached file (m.next file) m') := by
  induction h with
  | first => exact .inl rfl
  | next _ hlt ih =>
    rcases ih with rfl | ⟨hfirst, hnext⟩
    · exact .inr ⟨hlt, .first⟩
    · exact .inr ⟨hfirst, hnext.next hlt⟩

/-- Of two moments of one loop, one is reached from the other. -/
theorem comparable (h : Reached file first m) (h' : Reached file first m') :
    Reached file m m' ∨ Reached file m' m := by
  induction h with
  | first => exact .inl h'
  | next _ hlt ih =>
    rcases ih with hbehind | hfront
    · rcases hbehind.eq_or_next with rfl | ⟨-, hnext⟩
      · exact .inr (.next .first hlt)
      · exact .inl hnext
    · exact .inr (hfront.next hlt)

end Reached

theorem reached_after (h : Reached file first m) (calls : Nat) :
    Reached file first (after file calls m) := by
  induction calls generalizing m with
  | zero => exact h
  | succ calls ih =>
    unfold after
    split
    · rename_i hlt
      exact ih (h.next hlt)
    · exact h

theorem drop_ne_nil {i : Nat} (h : i < file.length) : file.drop i ≠ [] := by
  intro hnil
  have hle := List.drop_eq_nil_iff.mp hnil
  omega

theorem lt_length_of_drop {l : Line} {back : List Line} {i : Nat} (h : file.drop i = l :: back) :
    i < file.length := by
  by_contra hle
  rw [List.drop_eq_nil_of_le (Nat.le_of_not_lt hle)] at h
  cases h

/-- A call finishes its line and stays in the file, or leaves a class and its line. -/
theorem next_cases (h : m.index < file.length) :
    (∃ s items further,
        m.scan.step m.index (file.drop m.index) = .done s items further ∧
        m.next file =
          { scan := s, index := m.index + further + 1, items := m.items ++ items } ∧
        m.index + further < file.length) ∨
      (m.scan.scope.isSome = true ∧ ∃ s items,
        m.scan.step m.index (file.drop m.index) = .again s items ∧
        m.next file = { scan := s, index := m.index, items := m.items ++ items } ∧
        s.scope = none) := by
  rcases Scan.step_cases m.scan m.index (drop_ne_nil h) with
    ⟨s, items, further, hstep, hlt⟩ | ⟨hsome, s, items, hstep, hscope⟩
  · rw [List.length_drop] at hlt
    refine .inl ⟨s, items, further, hstep, ?_, by omega⟩
    simp only [next, hstep, follow]
  · refine .inr ⟨hsome, s, items, hstep, ?_, hscope⟩
    simp only [next, hstep, follow]

/-- The index stays in the file or stands behind its last line. -/
theorem Reached.index_le (h : Reached file first m) (hfirst : first.index ≤ file.length) :
    m.index ≤ file.length := by
  refine h.invariant (I := fun m => m.index ≤ file.length) hfirst fun m _ hlt => ?_
  rcases next_cases hlt with ⟨s, items, further, -, hnext, hbound⟩ | ⟨-, s, items, -, hnext, -⟩
  · rw [hnext]
    exact hbound
  · rw [hnext]
    exact Nat.le_of_lt hlt

/-! ## The loop records what the recursion records -/

/-- What is recorded in the end: what has been recorded, and what the recursion still
finds. -/
def total (file : List Line) (m : Moment) : List Item :=
  m.items ++ m.scan.itemsFrom m.index (file.drop m.index)

theorem total_next (h : m.index < file.length) : (m.next file).total file = m.total file := by
  rcases next_cases h with
    ⟨s, items, further, hstep, hnext, -⟩ | ⟨-, s, items, hstep, hnext, hscope⟩
  · rw [total, total, hnext, Scan.itemsFrom_of_done (drop_ne_nil h) hstep]
    simp only [List.append_assoc, List.drop_drop, Nat.add_assoc]
  · rw [total, total, hnext, Scan.itemsFrom_of_again (drop_ne_nil h) hstep hscope,
      List.append_assoc]

theorem Reached.total_eq (h : Reached file first m) : m.total file = first.total file :=
  h.invariant (I := fun m => m.total file = first.total file) rfl fun _ ih hlt =>
    (total_next hlt).trans ih

/-- Where no line is left, the loop has recorded all that there is. -/
theorem total_eq_allItems (h : file.length ≤ m.index) : m.total file = m.allItems := by
  rw [total, List.drop_eq_nil_iff.mpr h, Scan.itemsFrom, allItems]

/-! ## The loop ends -/

/-- Twice the lines that are left, and one more inside a class. Each call takes at least
one away: a class is entered only behind a line, and left without one. -/
def toDo (file : List Line) (m : Moment) : Nat :=
  2 * (file.length - m.index) + if m.scan.scope.isSome then 1 else 0

theorem toDo_next_lt (h : m.index < file.length) : (m.next file).toDo file < m.toDo file := by
  rcases next_cases h with ⟨s, items, further, -, hnext, -⟩ | ⟨hsome, s, items, -, hnext, hscope⟩
  · -- two are gone with the line, and at most one has come with a class
    rw [toDo, toDo, hnext]
    simp only
    split <;> split <;> omega
  · rw [toDo, toDo, hnext]
    simp only [hsome, hscope, Option.isSome_none, Bool.false_eq_true, if_true, if_false]
    omega

theorem length_le_index_after (calls : Nat) (h : m.toDo file ≤ calls) :
    file.length ≤ (after file calls m).index := by
  induction calls generalizing m with
  | zero =>
    simp only [toDo] at h
    simp only [after]
    omega
  | succ calls ih =>
    unfold after
    split
    · rename_i hlt
      have hless := toDo_next_lt hlt
      exact ih (by omega)
    · rename_i hle
      omega

end Moment

/-- The last moment of a scan; twice as many calls as there are lines are enough. -/
def Moment.last (path : String) (family : Family) (file : List Line) : Moment :=
  (Moment.start path family).after file (2 * file.length)

section

variable (path : String) (family : Family) (file : List Line)

theorem Moment.reached_last :
    Reached file (start path family) (last path family file) :=
  reached_after .first _

theorem Moment.index_last : (last path family file).index = file.length := by
  have hle := (reached_last path family file).index_le (Nat.zero_le _)
  have hge : file.length ≤ (last path family file).index := by
    refine length_le_index_after _ ?_
    simp [toDo, start]
  omega

/-- From any moment of a scan its end is reached, with what is recorded there. -/
theorem Moment.Reached.exists_last {m : Moment} (h : Reached file (start path family) m) :
    ∃ k, Reached file m k ∧ k.allItems = (last path family file).allItems := by
  have hend : Reached file m (m.after file (m.toDo file)) := reached_after .first _
  have hlast := reached_last path family file
  have hindex := length_le_index_after _ (Nat.le_refl (m.toDo file))
  refine ⟨_, hend, ?_⟩
  rw [← total_eq_allItems hindex, hend.total_eq, h.total_eq, ← hlast.total_eq,
    total_eq_allItems (Nat.le_of_eq (index_last path family file).symm)]

/-- The lines of a file make the outline of what the loop has recorded at its end. -/
theorem scanLines_eq_ofItems :
    scanLines path family file =
      .ofItems path family (Moment.last path family file).allItems := by
  have htotal := (Moment.reached_last path family file).total_eq
  rw [Moment.total_eq_allItems (Nat.le_of_eq (Moment.index_last path family file).symm)] at htotal
  rw [scanLines, htotal]
  rfl

end

/-! ## Outlines -/

/-- The outline of a file holds what the loop has recorded at its end. -/
theorem Outline.holds_build (path : String) (content : List Char) (family : Family) :
    (Outline.build path content family).Holds
      (Moment.last path family (Text.lines content)).allItems := by
  have hscan := scanLines_eq_ofItems path family (Text.lines content)
  constructor <;> simp only [Outline.build, Outline.recount, hscan, Outline.ofItems]

theorem Outline.lineCount_build (path : String) (content : List Char) (family : Family) :
    (Outline.build path content family).lineCount = (Text.lines content).length := rfl

end CodeAtlas
