/-
One call of a handler of the brace family.

Everything that a call can do is said here once, as three relations: `CommentCase` for a
comment line, `OutsideCase` for a line outside classes and `InsideCase` for a line of a class,
with the guards under which each case arises. Laws about whole scans take the cases apart and
never unfold a handler.

Outside classes a line is passed, or it declares something and the scan goes on behind
its extent, or it opens a class. Inside a class a line is passed or begins a method.
-/
import CodeAtlas.Proofs.Header.Local

set_option autoImplicit false

namespace CodeAtlas

/-! ## Changes of the state, by field -/

namespace Scan

@[simp] theorem withPending_scope (s : Scan) (p : Pending) :
    (s.withPending p).scope = s.scope := rfl
@[simp] theorem forget_scope (s : Scan) : s.forget.scope = s.scope := rfl
@[simp] theorem leaveClass_scope (s : Scan) : s.leaveClass.scope = none := rfl

end Scan

namespace ClassScope

@[simp] theorem addMethod_start (c : ClassScope) (f : FunctionRecord) :
    (c.addMethod f).start = c.start := rfl
@[simp] theorem addMethod_depth (c : ClassScope) (f : FunctionRecord) :
    (c.addMethod f).depth = c.depth := rfl
@[simp] theorem addMethod_methods (c : ClassScope) (f : FunctionRecord) :
    (c.addMethod f).record.methods = c.record.methods ++ [f] := rfl

@[simp] theorem addProperty_start (c : ClassScope) (p : Property) :
    (c.addProperty p).start = c.start := by
  unfold addProperty
  split <;> rfl

@[simp] theorem addProperty_stop (c : ClassScope) (p : Property) :
    (c.addProperty p).stop = c.stop := by
  unfold addProperty
  split <;> rfl

@[simp] theorem addProperty_depth (c : ClassScope) (p : Property) :
    (c.addProperty p).depth = c.depth := by
  unfold addProperty
  split <;> rfl

@[simp] theorem addProperty_line (c : ClassScope) (p : Property) :
    (c.addProperty p).record.line = c.record.line := by
  unfold addProperty
  split <;> rfl

@[simp] theorem addProperty_methods (c : ClassScope) (p : Property) :
    (c.addProperty p).record.methods = c.record.methods := by
  unfold addProperty
  split <;> rfl

@[simp] theorem finish_line (c : ClassScope) : c.finish.line = c.record.line := rfl
@[simp] theorem finish_lineCount (c : ClassScope) : c.finish.lineCount = c.extent + 1 := rfl

end ClassScope

namespace Brace

@[simp] theorem deepen_start (c : ClassScope) (further : Nat) (ls : List Line) :
    (deepen c further ls).start = c.start := rfl
@[simp] theorem deepen_stop (c : ClassScope) (further : Nat) (ls : List Line) :
    (deepen c further ls).stop = c.stop := rfl
@[simp] theorem deepen_record (c : ClassScope) (further : Nat) (ls : List Line) :
    (deepen c further ls).record = c.record := rfl
@[simp] theorem deepen_depth (c : ClassScope) (further : Nat) (ls : List Line) :
    (deepen c further ls).depth = max (c.depth + netDelta (window further ls)) 0 := rfl

/-! ## Comment lines -/

section

variable {s s' : Scan} {t : Line}

/-- The mark of a doc comment begins with that of a comment. -/
theorem starts_comment_of_doc (h : Text.starts "/**" t = true) : Text.starts "/*" t = true := by
  have hmark : "/*".toList <+: "/**".toList := ⟨['*'], rfl⟩
  rw [Text.starts, List.isPrefixOf_iff_prefix] at h ⊢
  exact hmark.trans h

theorem not_starts_doc_of_comment (h : Text.starts "/*" t = false) :
    Text.starts "/**" t = false := by
  refine Bool.eq_false_iff.mpr fun hdoc => ?_
  rw [starts_comment_of_doc hdoc] at h
  cases h

/-- The second character tells two slashes from the mark of a comment. -/
theorem not_starts_comment_of_slashes (h : Text.starts "//" t = true) :
    Text.starts "/*" t = false := by
  refine Bool.eq_false_iff.mpr fun hmark => ?_
  rw [Text.starts, List.isPrefixOf_iff_prefix] at h hmark
  obtain ⟨rest, rfl⟩ := h
  obtain ⟨rest', heq⟩ := hmark
  cases heq

/-- Where no comment is open and none begins, only two slashes are left. -/
theorem commentLine?_eq_of_closed (hclosed : s.pending.doc.isOpen = false ∧ s.inComment = false)
    (hblock : Text.starts "/*" t = false) :
    commentLine? s t = if Text.starts "//" t = true then some s else none := by
  simp only [commentLine?, hclosed.1, hclosed.2, not_starts_doc_of_comment hblock, hblock,
    Bool.false_eq_true, if_false]

/-- What a comment line can do to the state. -/
inductive CommentCase (s : Scan) (t : Line) : Scan → Prop where
  | insideDoc : s.pending.doc.isOpen = true →
      CommentCase s t (s.withPending { s.pending with doc := s.pending.doc.push t })
  | inside : s.pending.doc.isOpen = false → s.inComment = true →
      CommentCase s t { s with inComment := !DocBuffer.closes t }
  | beginsDoc : s.pending.doc.isOpen = false → s.inComment = false →
      Text.starts "/**" t = true →
      CommentCase s t (s.withPending { s.pending with doc := DocBuffer.start t })
  | begins : s.pending.doc.isOpen = false → s.inComment = false →
      Text.starts "/**" t = false → Text.starts "/*" t = true →
      CommentCase s t { s with inComment := !DocBuffer.closes t }
  | slashes : s.pending.doc.isOpen = false → s.inComment = false →
      Text.starts "//" t = true → CommentCase s t s

theorem commentLine?_cases (h : commentLine? s t = some s') : CommentCase s t s' := by
  unfold commentLine? at h
  split at h
  · rename_i hopen
    cases h
    exact .insideDoc hopen
  · rename_i hopen
    have hopen : s.pending.doc.isOpen = false := Bool.eq_false_iff.mpr hopen
    split at h
    · rename_i hcomment
      cases h
      exact .inside hopen hcomment
    · rename_i hcomment
      have hcomment : s.inComment = false := Bool.eq_false_iff.mpr hcomment
      split at h
      · rename_i hdoc
        cases h
        exact .beginsDoc hopen hcomment hdoc
      · rename_i hdoc
        split at h
        · rename_i hstarts
          cases h
          exact .begins hopen hcomment (Bool.eq_false_iff.mpr hdoc) hstarts
        · split at h
          · rename_i hslashes
            cases h
            exact .slashes hopen hcomment hslashes
          · cases h

/-- A line is no comment line exactly if no comment is open and the line begins none. -/
theorem commentLine?_eq_none_iff : commentLine? s t = none ↔
    (s.pending.doc.isOpen = false ∧ s.inComment = false) ∧
      Text.starts "/*" t = false ∧ Text.starts "//" t = false := by
  refine ⟨fun h => ?_, fun ⟨hclosed, hblock, hslashes⟩ => ?_⟩
  · have hclosed : s.pending.doc.isOpen = false ∧ s.inComment = false := by
      unfold commentLine? at h
      split at h
      · cases h
      · rename_i hopen
        split at h
        · cases h
        · rename_i hcomment
          exact ⟨Bool.eq_false_iff.mpr hopen, Bool.eq_false_iff.mpr hcomment⟩
    have hblock : Text.starts "/*" t = false := by
      refine Bool.eq_false_iff.mpr fun hstarts => ?_
      simp only [commentLine?, hclosed.1, hclosed.2, hstarts, Bool.false_eq_true, if_false,
        if_true] at h
      split at h <;> cases h
    rw [commentLine?_eq_of_closed hclosed hblock] at h
    refine ⟨hclosed, hblock, Bool.eq_false_iff.mpr fun hslashes => ?_⟩
    rw [if_pos hslashes] at h
    cases h
  · rw [commentLine?_eq_of_closed hclosed hblock, hslashes]
    rfl

/-- A line that is no comment is read where no comment is open. -/
theorem calm_of_commentLine? (h : commentLine? s t = none) :
    s.pending.doc.isOpen = false ∧ s.inComment = false :=
  (commentLine?_eq_none_iff.mp h).1

end

/-! ## Outside classes -/

/-- The exports on the first of the lines, in their place. -/
def exportItems (at_ : Nat) (ls : List Line) : List Item :=
  (exportsOf (firstTrimmed ls)).map fun r => .exportItem (r.shift at_)

/-- What the first line declares outside classes, apart from a class and from exports:
the items, with what is pending, and the number of further lines that they take. -/
inductive Declares (s : Scan) (at_ : Nat) (ls : List Line) : List Item → Nat → Prop where
  | nothing : Declares s at_ ls [] 0
  | imports {name : String} {rs : List ImportRecord} :
      firstHit outside ls = some (name, .imports rs) →
      Declares s at_ ls ((rs.map (·.shift at_)).map .importItem) 0
  | interface {name : String} {r : InterfaceRecord} :
      firstHit outside ls = some (name, .interface r) →
      Declares s at_ ls
        [.interface
          { r.shift at_ with
            description := s.pending.docNow.description, fullDoc := s.pending.docNow.full,
            location := s.path,
            methods := (r.shift at_).methods.map fun m => { m with location := s.path } }]
        (braceExtent ls)
  | type {name : String} {r : TypeRecord} :
      firstHit outside ls = some (name, .type r) →
      Declares s at_ ls
        [.type
          { r.shift at_ with description := s.pending.docNow.description, location := s.path }]
        (if 0 < braceDelta (ls.headD []) then braceExtent ls else 0)
  | function {name : String} {head : FunctionHead} :
      firstHit outside ls = some (name, .function head) →
      Declares s at_ ls
        [.function (functionRecord s head at_ (bodyExtent head ls) ls s.pending.docNow
          s.pending.decorators)]
        (bodyExtent head ls)
  | constant {name : String} {r : ConstantRecord} :
      firstHit outside ls = some (name, .constant r) →
      Declares s at_ ls
        [.constant
          { r.shift at_ with description := s.pending.docNow.description, location := s.path }] 0

/-- What a call outside classes can do. -/
inductive OutsideCase (s : Scan) (at_ : Nat) (ls : List Line) : Step → Prop where
  | comment {s' : Scan} : commentLine? s (firstTrimmed ls) = some s' →
      OutsideCase s at_ ls (.done s' [] 0)
  | blank : commentLine? s (firstTrimmed ls) = none → firstTrimmed ls = [] →
      OutsideCase s at_ ls (.done (s.withPending s.pending.dropDoc) [] 0)
  | deep : commentLine? s (firstTrimmed ls) = none → 0 < s.depth →
      OutsideCase s at_ ls (skip (s.withPending s.pending.dropDoc) [] 0 ls)
  | decorator {d : List Char} : commentLine? s (firstTrimmed ls) = none → s.depth ≤ 0 →
      firstTrimmed ls = '@' :: d →
      OutsideCase s at_ ls (skip (s.withPending (s.pending.decorate (trimmedText d))) [] 0 ls)
  | declares {items : List Item} {further : Nat} :
      commentLine? s (firstTrimmed ls) = none → s.depth ≤ 0 →
      Declares s at_ ls items further →
      OutsideCase s at_ ls (skip s.forget (exportItems at_ ls ++ items) further ls)
  | classHead {name : String} {head : ClassHead} :
      commentLine? s (firstTrimmed ls) = none → s.depth ≤ 0 →
      firstHit outside ls = some (name, .classHead head) →
      OutsideCase s at_ ls
        (withItems (exportItems at_ ls)
          (openClass s.forget head at_ ls s.pending.docNow s.pending.decorators))

/-- A hit that opens no class declares something. -/
theorem declares_of_hit (s : Scan) (at_ : Nat) {ls : List Line} {name : String} {c : Construct}
    (hit : firstHit outside ls = some (name, c)) (hclass : ∀ head, c ≠ .classHead head) :
    ∃ items further, record s c at_ ls = skip s.forget items further ls ∧
      Declares s at_ ls items further := by
  cases c with
  | imports rs => exact ⟨_, _, rfl, .imports hit⟩
  | function head => exact ⟨_, _, rfl, .function hit⟩
  | method head => exact ⟨_, _, rfl, .nothing⟩
  | classHead head => exact absurd rfl (hclass head)
  | property p => exact ⟨_, _, rfl, .nothing⟩
  | interface r => exact ⟨_, _, rfl, .interface hit⟩
  | type r => exact ⟨_, _, rfl, .type hit⟩
  | constant r => exact ⟨_, _, rfl, .constant hit⟩
  | decorator d => exact ⟨_, _, rfl, .nothing⟩

/-- The cases are all that a call outside classes can do. -/
theorem outsideStep_cases (s : Scan) (at_ : Nat) (ls : List Line) :
    OutsideCase s at_ ls (outsideStep s at_ ls) := by
  unfold outsideStep
  simp only
  split
  · rename_i s' hcomment
    exact .comment hcomment
  · rename_i hcode
    split
    · rename_i hblank
      exact .blank hcode (List.isEmpty_iff.mp hblank)
    · split
      · rename_i hdeep
        exact .deep hcode hdeep
      · rename_i hdepth
        have hdepth : s.depth ≤ 0 := by omega
        split
        · rename_i d hd
          exact .decorator hcode hdepth hd
        · split
          · rename_i name c hit
            -- only a class is not skipped with its extent
            by_cases hclass : ∃ head, c = .classHead head
            · obtain ⟨head, rfl⟩ := hclass
              exact .classHead hcode hdepth hit
            · obtain ⟨items, further, hrec, hdecl⟩ :=
                declares_of_hit s at_ hit fun head h => hclass ⟨head, h⟩
              rw [hrec]
              exact .declares hcode hdepth hdecl
          · exact .declares hcode hdepth .nothing

/-- A declaration ends on a line of the file. -/
theorem Declares.further_lt {s : Scan} {at_ : Nat} {ls : List Line} {items : List Item}
    {further : Nat} (h : Declares s at_ ls items further) (hne : ls ≠ []) :
    further < ls.length := by
  have hpos : 0 < ls.length := List.length_pos_iff.mpr hne
  cases h with
  | nothing => exact hpos
  | imports => exact hpos
  | interface => exact braceExtent_lt hne
  | type =>
    split
    · exact braceExtent_lt hne
    · exact hpos
  | function hit =>
    have hhead := ((isLocal_of_outside hit).further_bounds rfl hne).2
    exact (bodyExtent_bounds hhead).2
  | constant => exact hpos

/-- A call outside classes finishes its line, and no line behind the last one. -/
theorem OutsideCase.exists_done {s : Scan} {at_ : Nat} {ls : List Line} {step : Step}
    (h : OutsideCase s at_ ls step) (hne : ls ≠ []) :
    ∃ s' items further, step = .done s' items further ∧ further < ls.length := by
  have hpos : 0 < ls.length := List.length_pos_iff.mpr hne
  cases h with
  | declares _ _ hdecl => exact ⟨_, _, _, rfl, hdecl.further_lt hne⟩
  | classHead =>
    simp only [openClass]
    split <;> exact ⟨_, _, _, rfl, hpos⟩
  | _ => exact ⟨_, _, _, rfl, hpos⟩

/-! ## Inside a class -/

/-- What a call inside the class `c` can do to the state and to the class, and how many
further lines it finishes. -/
inductive InsideCase (s : Scan) (c : ClassScope) (at_ : Nat) (ls : List Line) :
    Scan × ClassScope × Nat → Prop where
  | closing : c.stop ≤ at_ → InsideCase s c at_ ls (s, c, 0)
  | comment {s' : Scan} : at_ < c.stop → commentLine? s (firstTrimmed ls) = some s' →
      InsideCase s c at_ ls (s', c, 0)
  | blank : at_ < c.stop → commentLine? s (firstTrimmed ls) = none → firstTrimmed ls = [] →
      InsideCase s c at_ ls (s.withPending s.pending.dropDoc, c, 0)
  | deep : at_ < c.stop → commentLine? s (firstTrimmed ls) = none → c.depth ≠ 1 →
      InsideCase s c at_ ls (s.withPending s.pending.dropDoc, deepen c 0 ls, 0)
  | decorator {d : List Char} : at_ < c.stop → commentLine? s (firstTrimmed ls) = none →
      c.depth = 1 → firstTrimmed ls = '@' :: d →
      InsideCase s c at_ ls
        (s.withPending (s.pending.decorate (trimmedText d)), deepen c 0 ls, 0)
  | method {name : String} {head : FunctionHead} {extent : Nat} :
      at_ < c.stop → commentLine? s (firstTrimmed ls) = none → c.depth = 1 →
      firstHit inside ls = some (name, .method head) →
      extent = min (blockExtent head.further ls) (c.stop - at_) →
      InsideCase s c at_ ls
        (s.forget,
          (deepen c extent ls).addMethod
            (functionRecord s head at_ extent ls s.pending.docNow s.pending.decorators),
          extent)
  | property {name : String} {p : Property} :
      at_ < c.stop → commentLine? s (firstTrimmed ls) = none → c.depth = 1 →
      firstHit inside ls = some (name, .property p) →
      InsideCase s c at_ ls
        (s.forget,
          deepen (c.addProperty { p with description := s.pending.docNow.description }) 0 ls, 0)
  | nothing : at_ < c.stop → commentLine? s (firstTrimmed ls) = none → c.depth = 1 →
      InsideCase s c at_ ls (s.forget, deepen c 0 ls, 0)

/-- The cases are all that a call inside a class can do before it looks for the end of
the class. -/
theorem insideLine_cases (s : Scan) (c : ClassScope) (at_ : Nat) (ls : List Line) :
    InsideCase s c at_ ls (insideLine s c at_ ls) := by
  unfold insideLine
  split
  · rename_i hstop
    exact .closing hstop
  · rename_i hstop
    have hstop : at_ < c.stop := by omega
    simp only
    split
    · rename_i s' hcomment
      exact .comment hstop hcomment
    · rename_i hcode
      split
      · rename_i hblank
        exact .blank hstop hcode (List.isEmpty_iff.mp hblank)
      · split
        · rename_i hdeep
          exact .deep hstop hcode hdeep
        · rename_i hdepth
          have hdepth : c.depth = 1 := by omega
          split
          · rename_i d hd
            exact .decorator hstop hcode hdepth hd
          · split
            · rename_i hit
              exact .method hstop hcode hdepth hit rfl
            · rename_i hit
              exact .property hstop hcode hdepth hit
            · exact .nothing hstop hcode hdepth

/-- A call inside a class does not move the class or change the depth outside it, and
ends on a line of the class and of the file. -/
theorem InsideCase.frame {s s' : Scan} {c c' : ClassScope} {at_ further : Nat} {ls : List Line}
    (h : InsideCase s c at_ ls (s', c', further)) (hne : ls ≠ []) :
    c'.start = c.start ∧ c'.stop = c.stop ∧ c'.record.line = c.record.line ∧
      further ≤ c.stop - at_ ∧ further < ls.length := by
  have hpos : 0 < ls.length := List.length_pos_iff.mpr hne
  cases h with
  | method _ _ _ hit hextent =>
    -- the body ends in the file, and is clipped to the class
    have hhead := ((isLocal_of_inside hit).further_bounds rfl hne).2
    have hbound := blockExtent_bounds hhead
    refine ⟨rfl, rfl, rfl, by omega, by omega⟩
  | _ => simp [hpos]

/-- A call inside a class adds at most one method, that of its line. -/
theorem InsideCase.methods {s s' : Scan} {c c' : ClassScope} {at_ further : Nat} {ls : List Line}
    (h : InsideCase s c at_ ls (s', c', further)) :
    c'.record.methods = c.record.methods ∨
      ∃ name head, at_ < c.stop ∧ firstHit inside ls = some (name, .method head) ∧
        further = min (blockExtent head.further ls) (c.stop - at_) ∧
        c'.record.methods = c.record.methods ++
          [functionRecord s head at_ further ls s.pending.docNow s.pending.decorators] := by
  cases h with
  | method hstop _ _ hit hextent => exact .inr ⟨_, _, hstop, hit, hextent, by simp⟩
  | _ => exact .inl (by simp)

/-- A class ends behind its last line, and is recorded there. -/
theorem insideStep_eq (s : Scan) (c : ClassScope) (at_ : Nat) (ls : List Line) :
    insideStep s c at_ ls =
      if (insideLine s c at_ ls).2.1.stop < at_ + (insideLine s c at_ ls).2.2 + 1 then
        .done (insideLine s c at_ ls).1.leaveClass [.closed (insideLine s c at_ ls).2.1]
          (insideLine s c at_ ls).2.2
      else
        .done { (insideLine s c at_ ls).1 with scope := some (insideLine s c at_ ls).2.1 } []
          (insideLine s c at_ ls).2.2 := rfl

end Brace

end CodeAtlas
