/-
A scan on the lines of decorators.

Outside classes and inside one the scan treats such lines in the same way, if brackets are counted
from the bracket of the class on (`Scan.height`). One step is said for each kind of line: a comment
or a blank line changes only the comment that is open, a line inside of brackets is passed, and a
decorator outside of brackets is pending behind its line. So a scan that comes to lines that keep
what is pending has all their decorators pending behind them (`KeepsPending.exists_scanAt`), while
any other line of code outside of brackets drops what is pending (`ScanAt.back_next_of_code`).
-/
import CodeAtlas.Proofs.Scan.Alike
import CodeAtlas.Proofs.Scan.DecoratorLines

set_option autoImplicit false

namespace CodeAtlas

/-! ## Where a scan stands -/

/-- The curly brackets that are open where the scan stands: outside classes, or inside the bracket
of the class. -/
def Scan.height (s : Scan) : Int :=
  match s.scope with
  | none => s.depth
  | some c => c.depth - 1

theorem Scan.height_of_none {s : Scan} (h : s.scope = none) : s.height = s.depth := by
  rw [height, h]

theorem Scan.height_of_some {s : Scan} {c : ClassScope} (h : s.scope = some c) :
    s.height = c.depth - 1 := by
  rw [height, h]

namespace Brace

/-- Where a scan of the brace family stands: in a class with that last line or in none, inside of a
comment or not, inside of so many brackets, and with the decorators pending, the newest first. -/
structure ScanAt (s : Scan) (stop : Option Nat) (inside : Bool) (height : Int)
    (back : List String) : Prop where
  isBrace : s.IsBrace
  stop : s.scope.map (·.stop) = stop
  inside : s.inside = inside
  height : s.height = height
  back : s.pending.back = back

/-- The handlers pass the first line alone: with its brackets counted, whether it stands outside
classes or in front of the last line of one. -/
structure PassesLine (s : Scan) (at_ : Nat) (ls : List Line) (s' : Scan) (delta : Int) : Prop where
  outside : s.scope = none →
    outsideStep s at_ ls = .done { s' with depth := s.depth + delta } [] 0
  inside : ∀ c, s.scope = some c → at_ < c.stop →
    insideLine s c at_ ls = (s', { c with depth := c.depth + delta }, 0)

section

variable {file : List Line} {m : Moment} {stop : Option Nat} {inside : Bool} {height : Int}
  {back : List String} {l : Line}

theorem ScanAt.next {s' : Scan} {delta : Int} (h : ScanAt m.scan stop inside height back)
    (hstop : ∀ n ∈ stop, m.index < n) (hs' : s'.IsBrace) (hscope : s'.scope = m.scan.scope)
    (hpasses : PassesLine m.scan m.index (file.drop m.index) s' delta) :
    (m.next file).index = m.index + 1 ∧
      ScanAt (m.next file).scan stop s'.inside (height + delta) s'.pending.back := by
  have hfamily := h.isBrace.family
  have hlast := h.stop
  have hheight := h.height
  cases hmscope : m.scan.scope with
  | none =>
    have hnext : m.next file = m.follow (.done { s' with depth := m.scan.depth + delta } [] 0) := by
      rw [← hpasses.outside hmscope]
      exact next_eq_of_outside hfamily hmscope
    rw [hmscope] at hlast hscope
    rw [Scan.height_of_none hmscope] at hheight
    rw [hnext]
    refine ⟨rfl, ⟨hs'.family, hs'.apart⟩, (congrArg _ hscope).trans hlast, rfl, ?_, rfl⟩
    -- outside classes the height is the depth itself
    have hheight' : (m.follow (.done { s' with depth := m.scan.depth + delta } [] 0)).scan.height =
        m.scan.depth + delta := Scan.height_of_none hscope
    rw [hheight', hheight]
  | some c =>
    have hbound : m.index < c.stop := hstop _ (by rw [← hlast, hmscope]; rfl)
    have hnext : m.next file =
        m.follow (.done { s' with scope := some { c with depth := c.depth + delta } } [] 0) := by
      rw [next_eq_of_inside hfamily hmscope, insideStep_eq, hpasses.inside c hmscope hbound]
      exact congrArg m.follow (if_neg (Nat.not_lt_of_ge hbound))
    rw [hmscope] at hlast
    rw [Scan.height_of_some hmscope] at hheight
    rw [hnext]
    refine ⟨rfl, ⟨hs'.family, hs'.apart⟩, hlast, rfl, ?_, rfl⟩
    -- the brace of the class counts as one more
    show c.depth + delta - 1 = height + delta
    omega

/-! ## One line -/

/-- Outside of comments, a line that begins none is not read as one. -/
theorem commentLine?_of_code {s : Scan} (hinside : s.inside = inside)
    (hcode : isSilent inside l = false) : commentLine? s (Text.trim l) = none := by
  obtain ⟨rfl, hblock, hslashes, -⟩ := of_not_isSilent hcode
  rw [Scan.inside, Bool.or_eq_false_iff] at hinside
  exact commentLine?_eq_none_iff.mpr ⟨hinside.symm, hblock, hslashes⟩

/-- Inside of a comment, and where one begins, the state is behind the line inside of a comment as
the line says, and else as it was. -/
theorem exists_commentLine?_of_isSilent {s : Scan} (hs : s.IsBrace) (hinside : s.inside = inside)
    (hsilent : isSilent inside l = true) (hmore : inside = true ∨ Text.trim l ≠ []) :
    ∃ s', commentLine? s (Text.trim l) = some s' ∧ s'.IsBrace ∧
      s'.inside = insideBehind inside l ∧ s'.scope = s.scope ∧ s'.depth = s.depth := by
  subst hinside
  by_cases hmark : s.inside = true ∨ Text.starts "/*" (Text.trim l) = true
  · obtain ⟨s', hs'⟩ := exists_commentLine? s (Text.trim l) hmark
    obtain ⟨hbrace, hbehind, hscope, hdepth⟩ := passed_of_commentLine? hs hs' hmark
    refine ⟨s', hs', hbrace, ?_, hscope, hdepth⟩
    rw [hbehind, insideBehind, (Bool.or_eq_true _ _).mpr hmark, Bool.true_and]
  · -- two slashes change nothing
    obtain ⟨hout, hblock⟩ := not_or.mp hmark
    have hblank : Text.trim l ≠ [] := hmore.resolve_left hout
    rw [Bool.not_eq_true] at hout hblock
    have hslashes : Text.starts "//" (Text.trim l) = true := by
      simpa [isSilent, hout, hblock, hblank] using hsilent
    have hflags : s.inComment = false ∧ s.pending.doc.isOpen = false :=
      Bool.or_eq_false_iff.mp hout
    refine ⟨s, ?_, hs, ?_, rfl, rfl⟩
    · rw [commentLine?_eq_of_closed hflags.symm hblock, if_pos hslashes]
    · rw [insideBehind, hout, hblock]
      rfl

/-- Dropping a doc comment where none is open leaves the state where it is. -/
theorem ScanAt.dropDoc {s : Scan} (h : ScanAt s stop false height back) :
    (s.withPending s.pending.dropDoc).IsBrace ∧
      (s.withPending s.pending.dropDoc).inside = false := by
  have hinside : s.inComment = false ∧ s.pending.doc.isOpen = false :=
    Bool.or_eq_false_iff.mp h.inside
  refine ⟨⟨h.isBrace.family, fun _ => rfl⟩, ?_⟩
  show (s.inComment || false) = false
  rw [hinside.1]
  rfl

/-- A blank line and a line of a comment change nothing but the comment that is open. -/
theorem ScanAt.next_silent (h : ScanAt m.scan stop inside height back)
    (hline : (file.drop m.index).headD [] = l) (hstop : ∀ n ∈ stop, m.index < n)
    (hsilent : isSilent inside l = true) :
    (m.next file).index = m.index + 1 ∧
      ScanAt (m.next file).scan stop (insideBehind inside l) height back := by
  have hfirst : firstTrimmed (file.drop m.index) = Text.trim l := congrArg Text.trim hline
  rw [← Int.add_zero height]
  by_cases hmore : inside = true ∨ Text.trim l ≠ []
  · obtain ⟨s', hs', hbrace, hbehind, hscope, hdepth⟩ :=
      exists_commentLine?_of_isSilent h.isBrace h.inside hsilent hmore
    have hpasses : PassesLine m.scan m.index (file.drop m.index) s' 0 := by
      refine ⟨fun _ => ?_, fun c _ hlt => ?_⟩
      · simp only [outsideStep, hfirst, hs', Int.add_zero, ← hdepth]
      · simp only [insideLine, hfirst, hs', if_neg (Nat.not_le_of_gt hlt), Int.add_zero]
    rw [← hbehind, ← h.back, ← back_of_commentLine? hs']
    exact h.next hstop hbrace hscope hpasses
  -- what is left is a blank line outside of comments, which drops the doc and keeps the decorators
  · obtain ⟨hout, hblank⟩ := not_or.mp hmore
    rw [Bool.not_eq_true] at hout
    rw [ne_eq, not_not] at hblank
    subst hout
    have hflags : m.scan.inComment = false ∧ m.scan.pending.doc.isOpen = false :=
      Bool.or_eq_false_iff.mp h.inside
    have hcode : commentLine? m.scan [] = none :=
      commentLine?_eq_none_iff.mpr ⟨hflags.symm, rfl, rfl⟩
    have hpasses : PassesLine m.scan m.index (file.drop m.index)
        (m.scan.withPending m.scan.pending.dropDoc) 0 := by
      refine ⟨fun _ => ?_, fun c _ hlt => ?_⟩
      · simp only [outsideStep, hfirst, hblank, hcode, List.isEmpty_nil, if_true, Int.add_zero]
        rfl
      · simp only [insideLine, hfirst, hblank, hcode, List.isEmpty_nil, if_true, Int.add_zero,
          if_neg (Nat.not_le_of_gt hlt)]
    obtain ⟨hbrace, hbehind⟩ := h.dropDoc
    have hnext := h.next hstop hbrace rfl hpasses
    rw [hbehind] at hnext
    have hnone : insideBehind false l = false := by
      rw [insideBehind, hblank]
      rfl
    rw [hnone, ← h.back]
    exact hnext

/-- A line of code inside of brackets keeps what is pending, and its brackets are counted. -/
theorem ScanAt.next_argument (h : ScanAt m.scan stop false height back)
    (hline : (file.drop m.index).headD [] = l) (hstop : ∀ n ∈ stop, m.index < n)
    (hcode : isSilent false l = false) (hpos : 0 < height) (hopen : 0 ≤ height + braceDelta l) :
    (m.next file).index = m.index + 1 ∧
      ScanAt (m.next file).scan stop false (height + braceDelta l) back := by
  have hfirst : firstTrimmed (file.drop m.index) = Text.trim l := congrArg Text.trim hline
  have hcomment := commentLine?_of_code h.inside hcode
  have hblack : (Text.trim l).isEmpty = false :=
    List.isEmpty_eq_false_iff.mpr (of_not_isSilent hcode).2.2.2
  have hheight := h.height
  -- a positive height is a depth at which both handlers only count brackets
  have hpasses : PassesLine m.scan m.index (file.drop m.index)
      (m.scan.withPending m.scan.pending.dropDoc) (braceDelta l) := by
    refine ⟨fun hnone => ?_, fun c hsome hlt => ?_⟩
    -- the count is never cut off at zero, as the height does not fall below it
    · rw [Scan.height_of_none hnone] at hheight
      have hdepth : 0 < m.scan.depth := by omega
      have hmax : max (m.scan.depth + braceDelta l) 0 = m.scan.depth + braceDelta l :=
        max_eq_left (by omega)
      simp only [outsideStep, hfirst, hcomment, hblack, if_pos hdepth, skip, netDelta_window_zero,
        hline, Bool.false_eq_true, if_false]
      rw [← hmax]
      rfl
    · rw [Scan.height_of_some hsome] at hheight
      have hdepth : c.depth ≠ 1 := by omega
      have hmax : max (c.depth + braceDelta l) 0 = c.depth + braceDelta l :=
        max_eq_left (by omega)
      simp only [insideLine, hfirst, hcomment, hblack, if_neg (Nat.not_le_of_gt hlt), if_pos hdepth,
        deepen, netDelta_window_zero, hline, hmax, Bool.false_eq_true, if_false]
  obtain ⟨hbrace, hbehind⟩ := h.dropDoc
  have hnext := h.next hstop hbrace rfl hpasses
  rw [hbehind] at hnext
  rw [← h.back]
  exact hnext

/-- A decorator outside of brackets is pending behind its line. -/
theorem ScanAt.next_decorator (h : ScanAt m.scan stop false 0 back)
    (hline : (file.drop m.index).headD [] = l) (hstop : ∀ n ∈ stop, m.index < n)
    (hcode : isSilent false l = false) {t : List Char} (hmark : Text.trim l = '@' :: t)
    (hopen : 0 ≤ braceDelta l) :
    (m.next file).index = m.index + 1 ∧
      ScanAt (m.next file).scan stop false (braceDelta l) (trimmedText t :: back) := by
  have hfirst : firstTrimmed (file.drop m.index) = '@' :: t :=
    (congrArg Text.trim hline).trans hmark
  have hcomment := commentLine?_of_code h.inside hcode
  rw [hmark] at hcomment
  have hheight := h.height
  -- at height zero both handlers look for the mark before they look for a header
  have hpasses : PassesLine m.scan m.index (file.drop m.index)
      (m.scan.withPending (m.scan.pending.decorate (trimmedText t))) (braceDelta l) := by
    refine ⟨fun hnone => ?_, fun c hsome hlt => ?_⟩
    · rw [Scan.height_of_none hnone] at hheight
      have hdepth : ¬ 0 < m.scan.depth := by omega
      have hmax : max (m.scan.depth + braceDelta l) 0 = m.scan.depth + braceDelta l :=
        max_eq_left (by omega)
      simp only [outsideStep, hfirst, hcomment, if_neg hdepth, skip, netDelta_window_zero,
        hline, List.isEmpty_cons, Bool.false_eq_true, if_false]
      rw [← hmax]
      rfl
    · rw [Scan.height_of_some hsome] at hheight
      have hdepth : ¬ c.depth ≠ 1 := by omega
      have hmax : max (c.depth + braceDelta l) 0 = c.depth + braceDelta l :=
        max_eq_left (by omega)
      simp only [insideLine, hfirst, hcomment, if_neg (Nat.not_le_of_gt hlt), if_neg hdepth,
        deepen, netDelta_window_zero, hline, hmax, List.isEmpty_cons, Bool.false_eq_true, if_false]
  have hbrace : (m.scan.withPending (m.scan.pending.decorate (trimmedText t))).IsBrace :=
    ⟨h.isBrace.family, h.isBrace.apart⟩
  have hnext := h.next hstop hbrace rfl hpasses
  have hinside : (m.scan.withPending (m.scan.pending.decorate (trimmedText t))).inside = false :=
    h.inside
  rw [hinside, Int.zero_add] at hnext
  rw [← h.back]
  exact hnext

/-! ## Whole runs -/

/-- A scan that comes to lines that keep what is pending reads them one by one, and has their
decorators pending behind them. -/
theorem KeepsPending.exists_scanAt {ls rest : List Line} {height' : Int} {texts : List String}
    (hkeeps : KeepsPending height (codeLines inside ls) height' texts)
    (h : ScanAt m.scan stop inside height back) (hfile : file.drop m.index = ls ++ rest)
    (hstop : ∀ n ∈ stop, m.index + ls.length ≤ n) :
    ∃ m', Moment.Reached file m m' ∧ m'.index = m.index + ls.length ∧
      ScanAt m'.scan stop (insideAfter inside ls) height' (texts.reverse ++ back) := by
  induction ls generalizing m inside height back texts with
  | nil =>
    cases hkeeps
    exact ⟨m, .first, rfl, h⟩
  | cons l ls ih =>
    have hline : (file.drop m.index).headD [] = l := by rw [hfile]; rfl
    have hlt : m.index < file.length := Moment.lt_length_of_drop hfile
    have hbound : ∀ n ∈ stop, m.index < n := fun n hn => by
      have hle := hstop n hn
      rw [List.length_cons] at hle
      omega
    -- the rest is read from the next moment on
    have hrest : ∀ {height₁ : Int} {back₁ texts₁ : List String},
        (m.next file).index = m.index + 1 ∧
          ScanAt (m.next file).scan stop (insideBehind inside l) height₁ back₁ →
        KeepsPending height₁ (codeLines (insideBehind inside l) ls) height' texts₁ →
        ∃ m', Moment.Reached file m m' ∧ m'.index = m.index + (l :: ls).length ∧
          ScanAt m'.scan stop (insideAfter inside (l :: ls)) height'
            (texts₁.reverse ++ back₁) := by
      intro height₁ back₁ texts₁ ⟨hindex, hat⟩ hkeeps₁
      have hfile₁ : file.drop (m.next file).index = ls ++ rest := by
        rw [hindex, ← List.drop_drop, hfile]
        rfl
      obtain ⟨m', hreached, hindex', hat'⟩ := ih hkeeps₁ hat hfile₁ fun n hn => by
        have hle := hstop n hn
        rw [List.length_cons] at hle
        omega
      refine ⟨m', (Moment.Reached.next .first hlt).trans hreached, ?_, hat'⟩
      rw [hindex', hindex, List.length_cons]
      omega
    cases hsilent : isSilent inside l with
    | true =>
      rw [codeLines_of_isSilent hsilent] at hkeeps
      exact hrest (h.next_silent hline hbound hsilent) hkeeps
    | false =>
      have hnone := insideBehind_of_code hsilent
      rw [codeLines_of_code hsilent] at hkeeps
      obtain ⟨rfl, -⟩ := of_not_isSilent hsilent
      rw [hnone] at hrest
      cases hkeeps with
      | decorator hmark hopen hkeeps₁ =>
        have hread := hrest (h.next_decorator hline hbound hsilent hmark hopen) hkeeps₁
        simpa only [List.reverse_cons, List.append_assoc, List.singleton_append] using hread
      | argument hpos hopen hkeeps₁ =>
        exact hrest (h.next_argument hline hbound hsilent hpos hopen) hkeeps₁

/-- A line outside of brackets that is no decorator drops what is pending. -/
theorem ScanAt.back_next_of_code (h : ScanAt m.scan stop inside 0 back)
    (hline : (file.drop m.index).headD [] = l) (hstop : ∀ n ∈ stop, m.index < n)
    (hcode : isSilent inside l = false) (hmark : isMarked l = false) :
    (m.next file).scan.pending.back = [] := by
  have hfirst : firstTrimmed (file.drop m.index) = Text.trim l := congrArg Text.trim hline
  have hcomment := commentLine?_of_code h.inside hcode
  have hblack := (of_not_isSilent hcode).2.2.2
  have hnot : ∀ t, Text.trim l ≠ '@' :: t := fun t ht => by
    rw [isMarked, ht] at hmark
    cases hmark
  have hheight := h.height
  cases hscope : m.scan.scope with
  | none =>
    rw [Scan.height_of_none hscope] at hheight
    obtain ⟨step, hcase, hnext⟩ := next_outside file h.isBrace.family hscope
    rw [hnext]
    cases hcase with
    | comment hsome =>
      rw [hfirst, hcomment] at hsome
      cases hsome
    | blank _ hblank => exact absurd (hfirst.symm.trans hblank) hblack
    | deep _ hdepth => omega
    | decorator _ _ hd => exact absurd (hfirst.symm.trans hd) (hnot _)
    | declares => rfl
    | classHead =>
      rw [openClass_eq]
      split <;> rfl
  | some c =>
    rw [Scan.height_of_some hscope] at hheight
    have hbound : m.index < c.stop := hstop _ (by rw [← h.stop, hscope]; rfl)
    obtain ⟨s', c', further, hcase, hnext⟩ := next_inside file h.isBrace.family hscope
    -- whether the class ends on the line makes no difference to what is pending
    have hback : (m.next file).scan.pending.back = s'.pending.back := by
      rw [hnext]
      split <;> rfl
    rw [hback]
    cases hcase with
    | closing hle => omega
    | comment _ hsome =>
      rw [hfirst, hcomment] at hsome
      cases hsome
    | blank _ _ hblank => exact absurd (hfirst.symm.trans hblank) hblack
    | deep _ _ hdepth => omega
    | decorator _ _ _ hd => exact absurd (hfirst.symm.trans hd) (hnot _)
    | method | property | nothing => rfl

end

end Brace

end CodeAtlas
