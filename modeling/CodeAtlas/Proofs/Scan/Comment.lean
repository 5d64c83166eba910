/-
What the scan of the brace family is inside of.

The state has two flags for comments, one for a doc comment and one for any other. They are
set and cleared where a comment line is read and nowhere else; so where one is set, an earlier
line began a comment of the kind, and no line read since then ends it. That the two are never
set together comes from the order of the tests: behind a comment of one kind no line is looked
at that could begin the other.

There is one line that is not read: the last line of a class. If it ends a comment, the scan
is still inside that comment behind it, and takes what follows the class for comment text
(`swallowed_behindClass`). The invariant therefore lets a line that ends the comment stand
behind its beginning if a class ends on that line, and on no other condition.
-/
import CodeAtlas.Proofs.Scan.Documentation

set_option autoImplicit false

namespace CodeAtlas

/-! ## Comments that were begun -/

/-- The line begins a comment that goes on behind it, a doc comment if `doc` says so. -/
structure OpensComment (doc : Bool) (t : Line) : Prop where
  starts : Text.starts "/*" t = true
  kind : Text.starts "/**" t = doc
  unclosed : DocBuffer.closes t = false

instance (doc : Bool) (t : Line) : Decidable (OpensComment doc t) :=
  decidable_of_iff (Text.starts "/*" t = true ∧ Text.starts "/**" t = doc ∧
      DocBuffer.closes t = false)
    ⟨fun ⟨hstarts, hkind, hopen⟩ => ⟨hstarts, hkind, hopen⟩,
      fun h => ⟨h.starts, h.kind, h.unclosed⟩⟩

/-- A line in front of line `n` began a comment, and of the lines since then those that end it
are last lines of classes. -/
def StillOpen (file : List Line) (classes : List ClassRecord) (doc : Bool) (n : Nat) : Prop :=
  ∃ first, 0 < first ∧ first < n ∧ OpensComment doc (Text.trim (lineAt file first)) ∧
    ∀ k, first < k → k < n → DocBuffer.closes (Text.trim (lineAt file k)) = true →
      EndsClass classes k

namespace StillOpen

variable {file : List Line} {classes more : List ClassRecord} {doc : Bool} {n : Nat}

theorem mono (h : StillOpen file classes doc n) : StillOpen file (classes ++ more) doc n := by
  obtain ⟨first, hpos, hlt, hopens, hends⟩ := h
  exact ⟨first, hpos, hlt, hopens, fun k hk hkn hcloses => (hends k hk hkn hcloses).mono⟩

theorem begun (hpos : 0 < n) (hopens : OpensComment doc (Text.trim (lineAt file n))) :
    StillOpen file classes doc (n + 1) :=
  ⟨n, hpos, Nat.lt_succ_self n, hopens, fun k hk hkn => by omega⟩

/-- The line at hand does not end the comment, or ends a class as well. -/
theorem goes_on (h : StillOpen file classes doc n)
    (hline : DocBuffer.closes (Text.trim (lineAt file n)) = true → EndsClass classes n) :
    StillOpen file classes doc (n + 1) := by
  obtain ⟨first, hpos, hlt, hopens, hends⟩ := h
  refine ⟨first, hpos, Nat.lt_succ_of_lt hlt, hopens, fun k hk hkn hcloses => ?_⟩
  rcases Nat.lt_succ_iff_lt_or_eq.mp hkn with hkn | rfl
  · exact hends k hk hkn hcloses
  · exact hline hcloses

end StillOpen

/-- Is the scan inside a comment, and, as `doc` asks, inside a doc comment or another? -/
def Scan.isInside (s : Scan) (doc : Bool) : Bool :=
  if doc then s.pending.doc.isOpen else s.inComment

namespace Brace

/-! ## Comment lines -/

section

variable {s s' : Scan} {t : Line}

/-- A line that is no comment line is read outside of comments. -/
theorem not_isInside_of_commentLine? (h : commentLine? s t = none) (doc : Bool) :
    s.isInside doc = false := by
  obtain ⟨hdoc, hcomment⟩ := calm_of_commentLine? h
  cases doc
  · exact hcomment
  · exact hdoc

/-- Behind a comment line the scan is inside of the comment in which the line stands, if the
line does not end it, or of the one that the line begins, and never of two. -/
theorem CommentCase.isInside (h : CommentCase s t s')
    (hapart : s.isInside false = true → s.isInside true = false) :
    (s'.isInside false = true → s'.isInside true = false) ∧
      ∀ doc, s'.isInside doc = true →
        s.isInside doc = true ∧ DocBuffer.closes t = false ∨ OpensComment doc t := by
  simp only [Scan.isInside, Bool.false_eq_true, if_false, if_true, Bool.forall_bool] at hapart ⊢
  cases h with
  | insideDoc hopen =>
    have hnone : s.inComment = false := by
      by_contra hcomment
      rw [hapart (Bool.eq_true_of_not_eq_false hcomment)] at hopen
      cases hopen
    simp +contextual [Scan.withPending, DocBuffer.push, hnone, hopen]
  | inside hopen hcomment => simp +contextual [hopen, hcomment]
  | beginsDoc hopen hcomment hdoc =>
    have hopens : DocBuffer.closes t = false → OpensComment true t :=
      fun hcloses => ⟨starts_comment_of_doc hdoc, hdoc, hcloses⟩
    simpa [Scan.withPending, DocBuffer.start, hopen, hcomment] using hopens
  | begins hopen hcomment hdoc hstarts =>
    have hopens : DocBuffer.closes t = false → OpensComment false t :=
      fun hcloses => ⟨hstarts, hdoc, hcloses⟩
    simpa [hopen, hcomment] using hopens
  | slashes hopen hcomment => simp [hopen, hcomment]

end

/-! ## The invariant -/

/-- At a moment the scan is inside of at most one comment. An earlier line began it, and no
line since then ended it, last lines of classes apart, which are passed unread. -/
structure CommentState (file : List Line) (m : Moment) : Prop where
  apart : m.scan.isInside false = true → m.scan.isInside true = false
  begun : ∀ doc, m.scan.isInside doc = true →
    StillOpen file (m.items.filterMap Item.class?) doc (m.index + 1)

variable {file : List Line} {m : Moment} {s' : Scan} {items : List Item}

/-- Behind a line that is no comment line the scan is outside of comments. -/
theorem commentState_of_calm {index : Nat} (hdoc : s'.pending.doc.isOpen = false)
    (hcomment : s'.inComment = false) :
    CommentState file { scan := s', index := index, items := items } := by
  refine ⟨fun h => ?_, fun doc h => ?_⟩
  · cases hcomment.symm.trans h
  · cases doc
    · cases hcomment.symm.trans h
    · cases hdoc.symm.trans h

/-- Behind a comment line. -/
theorem commentState_of_comment (h : CommentState file m)
    (hcomment : commentLine? m.scan (firstTrimmed (file.drop m.index)) = some s')
    (scope : Option ClassScope) :
    CommentState file
      { scan := { s' with scope := scope }, index := m.index + 1, items := m.items ++ items } := by
  rw [firstTrimmed, ← lineAt_succ] at hcomment
  obtain ⟨hapart, hinside⟩ := (commentLine?_cases hcomment).isInside h.apart
  refine ⟨hapart, fun doc hdoc => ?_⟩
  simp only [List.filterMap_append]
  rcases hinside doc hdoc with ⟨hold, hcloses⟩ | hopens
  · refine ((h.begun doc hold).goes_on fun hends => ?_).mono
    rw [hcloses] at hends
    cases hends
  · exact .begun (Nat.succ_pos _) hopens

theorem commentState_outside (h : CommentState file m) (hfamily : m.scan.family = .brace)
    (hnone : m.scan.scope = none) : CommentState file (m.next file) := by
  obtain ⟨step, hcase, hnext⟩ := next_outside file hfamily hnone
  rw [hnext]
  cases hcase with
  | comment hcomment => exact commentState_of_comment h hcomment _
  | blank hcode | deep hcode | declares hcode =>
    exact commentState_of_calm rfl (calm_of_commentLine? hcode).2
  | decorator hcode =>
    obtain ⟨hdoc, hcalm⟩ := calm_of_commentLine? hcode
    exact commentState_of_calm hdoc hcalm
  | classHead hcode =>
    have hcalm := (calm_of_commentLine? hcode).2
    rw [openClass_eq]
    split <;> exact commentState_of_calm rfl hcalm

theorem commentState_inside {path : String} {c : ClassScope} (h : CommentState file m)
    (hreached : Moment.Reached file (.start path .brace) m) (hsome : m.scan.scope = some c) :
    CommentState file (m.next file) := by
  obtain ⟨s', c', further, hcase, hnext⟩ :=
    next_inside file (sameFile_of_reached hreached).2 hsome
  rw [hnext]
  cases hcase with
  | closing hstop =>
    -- the flags stay as they are, whatever stands on the line
    have hends : EndsClass (m.items.filterMap Item.class? ++ [c.finish]) (m.index + 1) :=
      ⟨c.finish, List.mem_append_right _ (List.mem_singleton.mpr rfl),
        last_of_closing hreached hsome hstop⟩
    rw [if_pos (by omega)]
    refine ⟨h.apart, fun doc hdoc => ?_⟩
    have hclasses : (m.items ++ [Item.closed c]).filterMap Item.class? =
        m.items.filterMap Item.class? ++ [c.finish] := List.filterMap_append
    simp only [Moment.follow, hclasses]
    exact (h.begun doc hdoc).mono.goes_on fun _ => hends
  | comment _ hcomment => split <;> exact commentState_of_comment h hcomment _
  | blank _ hcode | deep _ hcode | method _ hcode | property _ hcode | nothing _ hcode =>
    have hcalm := (calm_of_commentLine? hcode).2
    split <;> exact commentState_of_calm rfl hcalm
  | decorator _ hcode =>
    obtain ⟨hdoc, hcalm⟩ := calm_of_commentLine? hcode
    split <;> exact commentState_of_calm hdoc hcalm

/-- At every moment of a scan. -/
theorem commentState_of_reached {path : String}
    (h : Moment.Reached file (.start path .brace) m) : CommentState file m := by
  induction h with
  | first => exact commentState_of_calm rfl rfl
  | @next m hreached hlt ih =>
    cases hscope : m.scan.scope with
    | none => exact commentState_outside ih (sameFile_of_reached hreached).2 hscope
    | some c => exact commentState_inside ih hreached hscope

/-- After any number of calls the scan of a file of the brace family is inside of at most one
comment, which was begun in front of the line that is to be read, and which no line since then
ended that was read. -/
theorem commentState_after (path : String) (file : List Line) (calls : Nat) :
    CommentState file ((Moment.start path .brace).after file calls) :=
  commentState_of_reached (Moment.reached_after .first calls)

end Brace

/-- A class that ends on the line on which its last comment ends, and a function behind it. -/
def commentedEnd : List Char :=
  "class A \x7b\n  /* note\n  */ \x7d\nfunction f() \x7b\x7d\n".toList

/-- Behind the class the scan is still inside of a comment of which the last line of the class is
the end, and the function is taken for comment text. -/
theorem swallowed_behindClass :
    ((Moment.start "a.ts" .brace).after (Text.lines commentedEnd) 3).index = 3 ∧
      ((Moment.start "a.ts" .brace).after (Text.lines commentedEnd) 3).scan.isInside false = true ∧
      (¬ ∃ first < 4, OpensComment false (Text.trim (lineAt (Text.lines commentedEnd) first)) ∧
        ∀ k < 4, first < k →
          DocBuffer.closes (Text.trim (lineAt (Text.lines commentedEnd) k)) = false) ∧
      (Outline.build "a.ts" commentedEnd .brace).functions = [] := by
  decide +kernel

end CodeAtlas
