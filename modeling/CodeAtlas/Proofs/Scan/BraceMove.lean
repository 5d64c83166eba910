/-
What a call does to the loop, in the brace family.

`OutsideCase` and `InsideCase` say what a handler does with its line. Seen from the loop
there are five moves: lines outside classes are passed, with what they declare; a class
is opened, or recorded at once where it ends on its first line; and lines of a class are
passed, up to those behind which the class is recorded. `next_move` says that there is no
other, so that a law about whole scans has five cases.

The brackets that a move counts are left out here: only a law about depth needs them, and
it takes the handlers' own cases.
-/
import CodeAtlas.Proofs.Scan.Moment

set_option autoImplicit false

namespace CodeAtlas.Brace

/-! ## The handlers, seen from the loop -/

/-- The class that a header opens. -/
def openedScope (s : Scan) (head : ClassHead) (at_ : Nat) (ls : List Line) (doc : Doc)
    (decorators : List String) : ClassScope :=
  { record := classRecord s.path head at_ doc decorators, text := ls, start := at_,
    stop := at_ + braceExtent ls, depth := max (braceDelta (ls.headD [])) 0,
    indent := Text.indentation (ls.headD []) }

theorem extent_openedScope (s : Scan) (head : ClassHead) (at_ : Nat) (ls : List Line) (doc : Doc)
    (decorators : List String) :
    (openedScope s head at_ ls doc decorators).extent = braceExtent ls := by
  simp only [ClassScope.extent, openedScope, Nat.add_sub_cancel_left]

theorem openClass_eq (s : Scan) (head : ClassHead) (at_ : Nat) (ls : List Line) (doc : Doc)
    (decorators : List String) :
    openClass s head at_ ls doc decorators =
      if (openedScope s head at_ ls doc decorators).extent = 0 then
        .done s [.closed (openedScope s head at_ ls doc decorators)] 0
      else .done { s with scope := some (openedScope s head at_ ls doc decorators) } [] 0 := rfl

variable {file : List Line} {m : Moment}

theorem next_eq_of_outside (hfamily : m.scan.family = .brace) (hscope : m.scan.scope = none) :
    m.next file = m.follow (outsideStep m.scan m.index (file.drop m.index)) := by
  simp only [Moment.next, Scan.step, hscope, Scan.outsideStep, hfamily]

theorem next_eq_of_inside {c : ClassScope} (hfamily : m.scan.family = .brace)
    (hscope : m.scan.scope = some c) :
    m.next file = m.follow (insideStep m.scan c m.index (file.drop m.index)) := by
  simp only [Moment.next, Scan.step, hscope, Scan.insideStep, hfamily]

theorem next_outside (file : List Line) (hfamily : m.scan.family = .brace)
    (hscope : m.scan.scope = none) :
    ∃ step, OutsideCase m.scan m.index (file.drop m.index) step ∧ m.next file = m.follow step :=
  ⟨_, outsideStep_cases m.scan m.index (file.drop m.index), next_eq_of_outside hfamily hscope⟩

theorem next_inside (file : List Line) {c : ClassScope} (hfamily : m.scan.family = .brace)
    (hscope : m.scan.scope = some c) :
    ∃ s' c' further, InsideCase m.scan c m.index (file.drop m.index) (s', c', further) ∧
      m.next file = m.follow
        (if c'.stop < m.index + further + 1 then .done s'.leaveClass [.closed c'] further
          else .done { s' with scope := some c' } [] further) := by
  have hcases := insideLine_cases m.scan c m.index (file.drop m.index)
  generalize hline : insideLine m.scan c m.index (file.drop m.index) = line at hcases
  obtain ⟨s', c', further⟩ := line
  refine ⟨s', c', further, hcases, ?_⟩
  rw [next_eq_of_inside hfamily hscope, insideStep_eq, hline]

/-! ## What no call changes -/

/-- The file of a scan, and how it is read. -/
structure SameFile (s s' : Scan) : Prop where
  path : s'.path = s.path
  family : s'.family = s.family

/-- A comment line changes only what is pending and the comment that is open. -/
theorem commentLine?_frame {s s' : Scan} {t : List Char} (h : commentLine? s t = some s') :
    SameFile s s' ∧ s'.scope = s.scope ∧ s'.depth = s.depth := by
  -- whichever kind of comment it is, the state is changed in the same two fields
  cases commentLine?_cases h <;> exact ⟨⟨rfl, rfl⟩, rfl, rfl⟩

theorem OutsideCase.sameFile {s : Scan} {at_ : Nat} {ls : List Line} {step : Step}
    (h : OutsideCase s at_ ls step) {s' : Scan} {items : List Item} {further : Nat}
    (hstep : step = .done s' items further) : SameFile s s' := by
  cases h with
  | comment hcomment =>
    cases hstep
    exact (commentLine?_frame hcomment).1
  | classHead =>
    rw [openClass_eq] at hstep
    split at hstep <;> cases hstep <;> exact ⟨rfl, rfl⟩
  | _ =>
    cases hstep
    exact ⟨rfl, rfl⟩

theorem InsideCase.sameFile {s s' : Scan} {c c' : ClassScope} {at_ further : Nat}
    {ls : List Line} (h : InsideCase s c at_ ls (s', c', further)) : SameFile s s' := by
  cases h with
  | comment _ hcomment => exact (commentLine?_frame hcomment).1
  | _ => exact ⟨rfl, rfl⟩

theorem sameFile_next (hfamily : m.scan.family = .brace) (hlt : m.index < file.length) :
    SameFile m.scan (m.next file).scan := by
  cases hscope : m.scan.scope with
  | none =>
    obtain ⟨step, hcase, hnext⟩ := next_outside file hfamily hscope
    obtain ⟨s', items, further, rfl, -⟩ := hcase.exists_done (Moment.drop_ne_nil hlt)
    rw [hnext]
    exact hcase.sameFile rfl
  | some c =>
    obtain ⟨s', c', further, hcase, hnext⟩ := next_inside file hfamily hscope
    have hsame := hcase.sameFile
    rw [hnext]
    split
    · exact ⟨hsame.path, hsame.family⟩
    · exact ⟨hsame.path, hsame.family⟩

/-- A scan keeps to its file. -/
theorem sameFile_of_reached {path : String}
    (h : Moment.Reached file (.start path .brace) m) :
    m.scan.path = path ∧ m.scan.family = .brace := by
  refine h.invariant (I := fun m => m.scan.path = path ∧ m.scan.family = .brace) ⟨rfl, rfl⟩ ?_
  rintro m ⟨hpath, hfamily⟩ hlt
  have hsame := sameFile_next hfamily hlt
  exact ⟨hsame.path.trans hpath, hsame.family.trans hfamily⟩

/-! ## The moves -/

/-- The items that a class header records with its exports, and the class that is open
behind it: the class itself is recorded at once if it ends on its first line. -/
def Opens (c : ClassScope) (items : List Item) (scope : Option ClassScope) : Prop :=
  if c.extent = 0 then items = [.closed c] ∧ scope = none else items = [] ∧ scope = some c

/-- What one call does to the loop, brackets apart. -/
inductive Move (file : List Line) (m : Moment) : Moment → Prop where
  | declares {s' : Scan} {exports items : List Item} {further : Nat} :
      m.scan.scope = none → s'.scope = none →
      (exports = [] ∧ items = [] ∨ exports = exportItems m.index (file.drop m.index)) →
      Declares m.scan m.index (file.drop m.index) items further →
      Move file m
        { scan := s', index := m.index + further + 1, items := m.items ++ (exports ++ items) }
  | opens {s' : Scan} {name : String} {head : ClassHead} {items : List Item} :
      m.scan.scope = none → firstHit outside (file.drop m.index) = some (name, .classHead head) →
      Opens (openedScope m.scan head m.index (file.drop m.index) m.scan.pending.docNow
        m.scan.pending.decorators) items s'.scope →
      Move file m
        { scan := s', index := m.index + 1,
          items := m.items ++ (exportItems m.index (file.drop m.index) ++ items) }
  | stays {s s' : Scan} {c c' : ClassScope} {further : Nat} :
      m.scan.scope = some c →
      InsideCase m.scan c m.index (file.drop m.index) (s, c', further) →
      m.index + further + 1 ≤ c'.stop → s'.scope = some c' →
      Move file m { scan := s', index := m.index + further + 1, items := m.items }
  | closes {s s' : Scan} {c c' : ClassScope} {further : Nat} :
      m.scan.scope = some c →
      InsideCase m.scan c m.index (file.drop m.index) (s, c', further) →
      c'.stop < m.index + further + 1 → s'.scope = none →
      Move file m
        { scan := s', index := m.index + further + 1, items := m.items ++ [.closed c'] }

/-- Any call makes one of the moves. -/
theorem next_move (hfamily : m.scan.family = .brace) : Move file m (m.next file) := by
  cases hscope : m.scan.scope with
  | none =>
    obtain ⟨step, hcase, hnext⟩ := next_outside file hfamily hscope
    rw [hnext]
    -- a line that is passed declares nothing, and exports nothing
    have hquiet : ∀ {s' : Scan}, s'.scope = none →
        Move file m { scan := s', index := m.index + 0 + 1, items := m.items ++ ([] ++ []) } :=
      fun hnone => .declares hscope hnone (.inl ⟨rfl, rfl⟩) .nothing
    cases hcase with
    | comment hcomment => exact hquiet ((commentLine?_frame hcomment).2.1.trans hscope)
    | blank => exact hquiet hscope
    | deep => exact hquiet hscope
    | decorator => exact hquiet hscope
    | declares _ _ hdecl => exact .declares hscope hscope (.inr rfl) hdecl
    | classHead _ _ hit =>
      rw [openClass_eq]
      split
      · rename_i hextent
        exact .opens hscope hit ((if_pos hextent).mpr ⟨rfl, hscope⟩)
      · rename_i hextent
        exact .opens hscope hit ((if_neg hextent).mpr ⟨rfl, rfl⟩)
  | some c =>
    obtain ⟨s', c', further, hcase, hnext⟩ := next_inside file hfamily hscope
    rw [hnext]
    split
    -- the end of the class is looked for when the line has been read
    · rename_i hbehind
      exact .closes hscope hcase hbehind rfl
    · rename_i hwithin
      have hmove : Move file m
          { scan := { s' with scope := some c' }, index := m.index + further + 1,
            items := m.items } := .stays hscope hcase (by omega) rfl
      rwa [← List.append_nil m.items] at hmove

end CodeAtlas.Brace
