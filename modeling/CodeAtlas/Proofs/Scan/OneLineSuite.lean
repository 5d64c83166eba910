/-
Suites behind the colon of a definition.

A scan takes nothing back. A record that is there at one moment is there at the end, and so is a
class that is open at the moment, with the methods that it has then and perhaps with more
(`Item.GrowsTo`). One call of a handler of the indentation family keeps this (`growsTo_next`), and
so does the rest of a scan (`Moment.Reached.exists_growsTo`).

A definition may have its suite on its own line, behind the colon, or on the next lines, indented
deeper. Where a scan comes to such a line, the definition is recorded as a function of the file or
as a method of the class that is open, with the decorators that were read in front
(`DefLine.RecordedIn`). It is recorded as it is written if nothing but a comment stands behind the
colon, and only then (`Outline.build_defLine`). A suite there hides the definition, except that a
return type may be taken to go on over the colon, as far as a later one.
-/
import CodeAtlas.Proofs.Header.DefLine
import CodeAtlas.Proofs.Scan.Membership
import CodeAtlas.Proofs.Scan.Origin
import CodeAtlas.Proofs.Text.Lines

set_option autoImplicit false

namespace CodeAtlas

/-! ## What is recorded stays -/

/-- The second item is the first one, or the same class with the methods of the first one and
perhaps with more. -/
inductive Item.GrowsTo : Item → Item → Prop where
  | same (a : Item) : GrowsTo a a
  | filled {r r' : ClassRecord} : r'.name = r.name → r'.line = r.line → r.methods <+: r'.methods →
      GrowsTo (.classItem r) (.classItem r')

theorem Item.GrowsTo.trans {a b d : Item} (h : a.GrowsTo b) (h' : b.GrowsTo d) : a.GrowsTo d := by
  cases h with
  | same => exact h'
  | filled hname hline hmethods =>
    cases h' with
    | same => exact .filled hname hline hmethods
    | filled hname' hline' hmethods' =>
      exact .filled (hname'.trans hname) (hline'.trans hline) (hmethods.trans hmethods')

theorem Item.GrowsTo.exists_class {r : ClassRecord} {b : Item} (h : (classItem r).GrowsTo b) :
    ∃ r', b = .classItem r' ∧ r'.name = r.name ∧ r'.line = r.line ∧ r.methods <+: r'.methods := by
  cases h with
  | same => exact ⟨r, rfl, rfl, rfl, List.prefix_rfl⟩
  | filled hname hline hmethods => exact ⟨_, rfl, hname, hline, hmethods⟩

/-- A class that is filled is the same class. -/
theorem Item.growsTo_closed {c c' : ClassScope} (hopening : c'.opening = c.opening)
    (hmethods : c.record.methods <+: c'.record.methods) :
    (Item.closed c).GrowsTo (Item.closed c') :=
  .filled (congrArg (·.record.name) hopening) (congrArg (·.record.line) hopening) hmethods

namespace Moment

variable {m m' : Moment} {c c' : ClassScope}

/-- What the first moment has is there at the second one. -/
def GrowsTo (m m' : Moment) : Prop := ∀ a ∈ m.allItems, ∃ b ∈ m'.allItems, a.GrowsTo b

theorem GrowsTo.of_scope_none {more : List Item} (hnone : m.scan.scope = none)
    (hitems : m'.items = m.items ++ more) : m.GrowsTo m' := by
  intro a ha
  rw [allItems, hnone, Option.map_none, Option.toList_none, List.append_nil] at ha
  refine ⟨a, ?_, .same a⟩
  rw [allItems, hitems, List.append_assoc]
  exact List.mem_append_left _ ha

/-- The class that is open is recorded, or is open and has been filled. -/
theorem GrowsTo.of_scope_some {more : List Item} (hsome : m.scan.scope = some c)
    (hitems : m'.items = m.items ++ more)
    (hclass : .closed c' ∈ more ++ (m'.scan.scope.map Item.closed).toList)
    (hgrows : (Item.closed c).GrowsTo (.closed c')) : m.GrowsTo m' := by
  intro a ha
  rw [allItems, hsome] at ha
  have hall : m'.allItems = m.items ++ (more ++ (m'.scan.scope.map Item.closed).toList) := by
    rw [allItems, hitems, List.append_assoc]
  rw [hall]
  rcases List.mem_append.mp ha with hold | hopen
  · exact ⟨a, List.mem_append_left _ hold, .same a⟩
  · rw [List.mem_singleton.mp hopen]
    exact ⟨_, List.mem_append_right _ hclass, hgrows⟩

end Moment

namespace Indent

variable {file : List Line} {m m' : Moment}

/-- A call takes nothing back. -/
theorem growsTo_next (file : List Line) (hfamily : m.scan.family = .indent) :
    m.GrowsTo (m.next file) := by
  cases hscope : m.scan.scope with
  | none =>
    obtain ⟨step, -, hnext⟩ := next_outside file hfamily hscope
    rw [hnext]
    cases step <;> exact .of_scope_none hscope rfl
  | some c =>
    obtain ⟨step, hcase, hnext⟩ := next_inside file hfamily hscope
    rw [hnext]
    cases hcase with
    | silent | closes | docstring | decorator | classHead | nothing =>
      exact .of_scope_some hscope rfl List.mem_cons_self (Item.growsTo_closed rfl List.prefix_rfl)
    | function =>
      refine .of_scope_some hscope rfl List.mem_cons_self (Item.growsTo_closed ?_ ?_)
      · exact opening_addMethod _ _ _ _ _
      · rw [methods_addMethod]
        exact List.prefix_append _ _
    | property =>
      refine .of_scope_some hscope rfl List.mem_cons_self (Item.growsTo_closed ?_ ?_)
      · exact ClassScope.opening_addProperty _ _
      · exact ⟨[], by rw [List.append_nil, ClassScope.addProperty_methods]⟩

/-- From any moment on a scan takes nothing back. -/
theorem growsTo_of_reached (h : Moment.Reached file m m')
    (hfamily : m.scan.family = .indent) : m.GrowsTo m' := by
  have hboth := h.invariant (I := fun k => k.scan.family = .indent ∧ m.GrowsTo k)
    ⟨hfamily, fun a ha => ⟨a, ha, .same a⟩⟩ fun k ⟨hk, hgrows⟩ _ => by
      refine ⟨family_next hk, fun a ha => ?_⟩
      obtain ⟨b, hb, hab⟩ := hgrows a ha
      obtain ⟨d, hd, hbd⟩ := growsTo_next file hk b hb
      exact ⟨d, hd, hab.trans hbd⟩
  exact hboth.2

end Indent

/-- What is recorded at a moment is there at the end. -/
theorem Moment.Reached.exists_growsTo {path : String} {file : List Line} {m : Moment}
    (h : Reached file (.start path .indent) m) {a : Item} (ha : a ∈ m.allItems) :
    ∃ b ∈ (Moment.last path .indent file).allItems, a.GrowsTo b := by
  obtain ⟨k, hend, hitems⟩ := h.exists_last
  rw [← hitems]
  exact Indent.growsTo_of_reached hend h.sameFile.2 a ha

/-! ## Functions and methods -/

/-- The record is one of a function or of a method. -/
def Outline.HasFunction (o : Outline) (f : FunctionRecord) : Prop :=
  f ∈ o.functions ∨ ∃ r ∈ o.classes, f ∈ r.methods

namespace Indent

/-! ## Lines with the header of a definition -/

section

variable {ls : List Line} {c : Construct} {head : FunctionHead}

theorem head?_of_defDeclaration? (h : defDeclaration? ls = some c) :
    ∃ d ∈ ['d', 'a'], (firstTrimmed ls).head? = some d := by
  simp only [defDeclaration?, Option.bind_eq_bind, Option.bind_eq_some_iff,
    Option.guard_eq_some'] at h
  obtain ⟨-, hguard, -⟩ := h
  rcases Bool.or_eq_true_iff.mp hguard with hdef | hasync
  · exact ⟨'d', by decide, Text.head?_of_starts hdef rfl⟩
  · exact ⟨'a', by decide, Text.head?_of_starts hasync rfl⟩

/-- The header of a definition is nothing else. -/
theorem firstHit_of_defDeclaration? (h : defDeclaration? ls = some c) :
    firstHit outside ls = some ("def", c) ∧ firstHit inside ls = some ("def", c) := by
  obtain ⟨d, hd, hhead⟩ := head?_of_defDeclaration? h
  have hne : ∀ b, b ∉ ['d', 'a'] → b ≠ d := by
    rintro b hb rfl
    exact hb hd
  have himport := importStatement?_eq_none_of_head? hhead (hne _ (by decide)) (hne _ (by decide))
  have hdecorator := decorator?_eq_none_of_head? hhead (hne _ (by decide))
  have hclass := classDeclaration?_eq_none_of_head? hhead (hne _ (by decide))
  constructor
  · simp only [firstHit, outside, List.findSome?_cons, himport, hdecorator, hclass, h,
      Option.map_none, Option.map_some]
  · simp only [firstHit, inside, List.findSome?_cons, hdecorator, hclass, h, Option.map_none,
      Option.map_some]

/-- A line with such a header is no comment and opens no docstring. -/
theorem isCode_of_defDeclaration? (h : defDeclaration? ls = some c) :
    saysNothing (firstTrimmed ls) = false ∧ Docstring.at? ls = none := by
  obtain ⟨d, hd, hhead⟩ := head?_of_defDeclaration? h
  have hplain : ∀ b ∈ ['d', 'a'],
      b ≠ '#' ∧ (b ≠ '"' ∧ b ≠ '\'') ∧ Docstring.isMark b = false :=
    List.forall_mem_cons.mpr ⟨by decide, List.forall_mem_singleton.mpr (by decide)⟩
  obtain ⟨hcomment, hquote, hmark⟩ := hplain d hd
  exact isCode_of_head? hhead hcomment hquote hmark

/-- Outside classes the definition is recorded as a function. -/
theorem outsideStep_of_defDeclaration? (h : defDeclaration? ls = some (.function head)) (s : Scan)
    (at_ : Nat) : outsideStep s at_ ls =
      .done { s with pending := s.pending.dropDecorators }
        [.function (functionRecord s head at_ (bodyExtent head ls) ls (docOf head ls)
          s.pending.decorators)] (bodyExtent head ls) := by
  obtain ⟨d, hd, hhead⟩ := head?_of_defDeclaration? h
  obtain ⟨hspeaks, hcode⟩ := isCode_of_defDeclaration? h
  have hne : '_' ≠ d := by
    rintro rfl
    revert hd
    decide
  have hall := Text.not_starts_of_head? "__all__" hhead rfl hne
  simp only [outsideStep, hspeaks, hcode, hall, (firstHit_of_defDeclaration? h).1,
    Bool.false_eq_true, if_false]
  rfl

/-- Inside a class it is added as a method, where it does not end the class. -/
theorem insideStep_of_defDeclaration? (h : defDeclaration? ls = some (.function head)) (s : Scan)
    {k : ClassScope} (at_ : Nat) (hkeeps : closesClass k.indent (ls.headD []) = false) :
    insideStep s k at_ ls =
      .done { s.withPending s.pending.dropDecorators with
        scope := some (addMethod s { k with stop := at_ } head at_ ls).1 } []
        (bodyExtent head ls) := by
  obtain ⟨hspeaks, hcode⟩ := isCode_of_defDeclaration? h
  simp only [insideStep, hspeaks, hkeeps, hcode, (firstHit_of_defDeclaration? h).2,
    Bool.false_eq_true, if_false]
  rfl

theorem insideStep_of_closesClass (hspeaks : saysNothing (firstTrimmed ls) = false) (s : Scan)
    {k : ClassScope} (at_ : Nat) (hcloses : closesClass k.indent (ls.headD []) = true) :
    insideStep s k at_ ls = .again s.leaveClass [.closed k] := by
  simp only [insideStep, hspeaks, hcloses, Bool.false_eq_true, if_false, if_true]

/-- A definition ends a class exactly if it is not indented deeper. -/
theorem closesClass_of_beginsDef (base : Nat) {l : Line} (h : beginsDef l = true) :
    closesClass base l = decide (Text.indentation l ≤ base) := by
  cases hcloses : closesClass base l with
  | true => exact (decide_eq_true (outdented_of_closesClass hcloses).2).symm
  | false =>
    exact (decide_eq_false (Nat.not_le_of_lt (lt_indentation_of_beginsDef hcloses h))).symm

end

/-! ## What a definition leaves in the outline -/

/-- The record says what the header says, at the moment at which its line is read. -/
structure DefLine.IsRecord (d : DefLine) (m : Moment) (f : FunctionRecord) : Prop where
  line : f.line = m.index + 1
  name : f.name = textOf d.name
  params : f.params = Indent.params d.params
  returnType : f.returnType = d.type.map textOf
  decorators : f.decorators = m.scan.pending.decorators

/-- The definition is recorded as a method of the class that is open, if its line is indented
deeper than the one of the class, by `width`, and as a function of the file otherwise. -/
inductive DefLine.RecordedIn (d : DefLine) (o : Outline) (m : Moment) (width : Nat) : Prop where
  | method {c : ClassScope} {r : ClassRecord} {f : FunctionRecord} : m.scan.scope = some c →
      c.indent < width → r ∈ o.classes → r.name = c.record.name → r.line = c.record.line →
      f ∈ r.methods → f.kind = .method → d.IsRecord m f → RecordedIn d o m width
  | function {f : FunctionRecord} : (∀ c, m.scan.scope = some c → width ≤ c.indent) →
      f ∈ o.functions → f.kind = d.head.kind → d.IsRecord m f → RecordedIn d o m width

section

variable {path : String} {file back : List Line} {l : Line} {m : Moment} {d : DefLine}
  {head : FunctionHead} {o : Outline}

/-- A definition outside classes is there as a function at the end. -/
theorem mem_functions_of_defDeclaration? (h : Moment.Reached file (.start path .indent) m)
    (hback : file.drop m.index = l :: back)
    (hdecl : defDeclaration? (l :: back) = some (.function head)) (hscope : m.scan.scope = none)
    (ho : o.Holds (Moment.last path .indent file).allItems) :
    functionRecord m.scan head m.index (bodyExtent head (l :: back)) (l :: back)
      (docOf head (l :: back)) m.scan.pending.decorators ∈ o.functions := by
  have hnext := next_of_outsideStep h.sameFile.2 hscope hback
    (outsideStep_of_defDeclaration? hdecl m.scan m.index)
  have hreached := h.next (Moment.lt_length_of_drop hback)
  rw [hnext] at hreached
  obtain ⟨b, hb, hgrows⟩ := hreached.exists_growsTo
    (List.mem_append_left _ (List.mem_append_right m.items (List.mem_singleton_self _)))
  cases hgrows
  exact ho.mem_functions.mpr hb

/-- A definition in the class that is open is there as a method of it at the end. -/
theorem exists_method_of_defDeclaration? {c : ClassScope}
    (h : Moment.Reached file (.start path .indent) m) (hback : file.drop m.index = l :: back)
    (hdecl : defDeclaration? (l :: back) = some (.function head)) (hscope : m.scan.scope = some c)
    (hkeeps : closesClass c.indent l = false)
    (ho : o.Holds (Moment.last path .indent file).allItems) :
    ∃ r ∈ o.classes, r.name = c.record.name ∧ r.line = c.record.line ∧
      asMethod (functionRecord m.scan head m.index (bodyExtent head (l :: back)) (l :: back)
        (docOf head (l :: back)) m.scan.pending.decorators) ∈ r.methods := by
  have hnext := next_of_insideStep h.sameFile.2 hscope hback
    (insideStep_of_defDeclaration? hdecl m.scan m.index hkeeps)
  have hreached := h.next (Moment.lt_length_of_drop hback)
  rw [hnext] at hreached
  obtain ⟨b, hb, hgrows⟩ := hreached.exists_growsTo
    (List.mem_append_right _ (List.mem_singleton_self _))
  have hopening := opening_addMethod m.scan { c with stop := m.index } head m.index (l :: back)
  have hmethods := methods_addMethod m.scan { c with stop := m.index } head m.index (l :: back)
  obtain ⟨r, rfl, hname, hline, hprefix⟩ := hgrows.exists_class
  refine ⟨r, ho.mem_classes.mpr hb, hname.trans (congrArg (·.record.name) hopening),
    hline.trans (congrArg (·.record.line) hopening), hprefix.mem ?_⟩
  show _ ∈ (addMethod m.scan { c with stop := m.index } head m.index (l :: back)).1.record.methods
  rw [hmethods]
  exact List.mem_append_right _ (List.mem_singleton_self _)

/-- A definition is recorded where it stands, if its header is read as it is written. -/
theorem DefLine.recordedIn {n : Nat} (h : Moment.Reached file (.start path .indent) m)
    (hback : file.drop m.index = l :: back) (hdef : beginsDef l = true)
    (hdecl : defDeclaration? (l :: back) = some (.function { d.head with further := n }))
    (ho : o.Holds (Moment.last path .indent file).allItems) :
    d.RecordedIn o m (Text.indentation l) := by
  cases hscope : m.scan.scope with
  | none =>
    have hmem := mem_functions_of_defDeclaration? h hback hdecl hscope ho
    exact .function (by simp [hscope]) hmem rfl ⟨rfl, rfl, rfl, rfl, rfl⟩
  | some c =>
    have hcloses := closesClass_of_beginsDef c.indent hdef
    -- only a line that is not deeper than its class ends it
    by_cases hdeeper : c.indent < Text.indentation l
    · rw [decide_eq_false (Nat.not_le_of_lt hdeeper)] at hcloses
      obtain ⟨r, hr, hname, hline, hmethod⟩ :=
        exists_method_of_defDeclaration? h hback hdecl hscope hcloses ho
      exact .method hscope hdeeper hr hname hline hmethod rfl ⟨rfl, rfl, rfl, rfl, rfl⟩
    · -- the class is left, and the line is read again outside of it
      have hout := Nat.le_of_not_lt hdeeper
      rw [decide_eq_true hout] at hcloses
      have hspeaks := (isCode_of_defDeclaration? hdecl).1
      have hnext := next_of_insideStep h.sameFile.2 hscope hback
        (insideStep_of_closesClass hspeaks m.scan m.index hcloses)
      have hreached := h.next (Moment.lt_length_of_drop hback)
      rw [hnext] at hreached
      have hmem := mem_functions_of_defDeclaration? hreached hback hdecl rfl ho
      refine .function (fun k hk => ?_) hmem rfl ⟨rfl, rfl, rfl, rfl, rfl⟩
      rw [hscope, Option.some.injEq] at hk
      rw [← hk]
      exact hout

end

/-! ## What the outline has of a line -/

/-- A record of a function comes from a definition on its line, and has its return type. -/
theorem exists_defDeclaration?_of_hasFunction {path : String} {file : List Line} {o : Outline}
    {f : FunctionRecord} (ho : o.Holds (Moment.last path .indent file).allItems)
    (h : o.HasFunction f) : ∃ i head c, f.line = i + 1 ∧ defDeclaration? (file.drop i) = some c ∧
      c.head? = some head ∧ f.returnType = head.returnType := by
  have horigin : f.HasOrigin path .indent file := by
    rcases h with hfunction | ⟨r, hr, hmethod⟩
    · exact hasOrigin_of_mem_allItems (ho.mem_functions.mp hfunction)
    · obtain ⟨c, hc, -, -, rfl⟩ := hasOrigin_of_mem_allItems (ho.mem_classes.mp hr)
      exact hc.methods f hmethod
  obtain ⟨i, extent, head, ⟨c, hdeclared, hhead⟩, -, doc, decorators, hrecord⟩ := horigin
  refine ⟨i, head, c, ?_, defDeclaration?_of_declared hdeclared hhead, hhead, ?_⟩
  · rcases hrecord with rfl | rfl <;> rfl
  · rcases hrecord with rfl | rfl <;> rfl

/-! ## Lines of a file -/

section

variable {path : String} {content g x : List Char} {front back : List Line} {d : DefLine}

/-- The line is recorded as it is written, if nothing is said behind its colon. -/
theorem DefLine.IsWritten.recordedIn_build (hd : d.IsWritten) (hg : Text.isBlank g = true)
    (hfile : Text.lines content = front ++ (g ++ d.text x) :: back)
    (hx : saysNothing (Text.trim x) = true) {m : Moment}
    (h : Moment.Reached (Text.lines content) (.start path .indent) m)
    (hindex : m.index = front.length) :
    d.RecordedIn (Outline.build path content .indent) m (Text.indentation g) := by
  have hback : (Text.lines content).drop m.index = (g ++ d.text x) :: back := by
    rw [hfile, hindex, List.drop_left]
  have hclean : ∀ k ∈ (g ++ d.text x) :: back, '\n' ∉ k := by
    rw [← hback]
    exact fun k hk => Text.lineFeed_notMem_lines content k (List.mem_of_mem_drop hk)
  have htrim := d.trim_line hg x
  have hdef : beginsDef (g ++ d.text x) = true := by
    rw [beginsDef, htrim]
    exact starts_of_prefix_header ⟨_, rfl⟩
  obtain ⟨n, hdecl⟩ := hd.exists_defDeclaration? htrim hx hclean
  rw [← d.indentation_line hg x]
  exact DefLine.recordedIn h hback hdef hdecl (Outline.holds_build path content .indent)

/-- With a statement behind the colon, what is recorded of the line has a type that goes on over
the colon. -/
theorem DefLine.IsWritten.exists_longer_build (hd : d.IsWritten) (hg : Text.isBlank g = true)
    (hfile : Text.lines content = front ++ (g ++ d.text x) :: back)
    (hx : saysNothing (Text.trim x) = false) {f : FunctionRecord}
    (hf : (Outline.build path content .indent).HasFunction f) (hline : f.line = front.length + 1) :
    ∃ type more, d.type = some type ∧ f.returnType = some (textOf (type ++ ':' :: more)) := by
  obtain ⟨i, head, c, hline', hdecl, hhead, htype⟩ :=
    exists_defDeclaration?_of_hasFunction (Outline.holds_build path content .indent) hf
  obtain rfl : i = front.length := Nat.succ.inj (hline'.symm.trans hline)
  rw [hfile, List.drop_left] at hdecl
  obtain ⟨head', type, more, rfl, hd', hreturn⟩ :=
    hd.exists_longer_type (d.trim_line hg x) hx hdecl
  obtain rfl : head' = head := Option.some.inj hhead
  exact ⟨type, more, hd', htype.trans hreturn⟩

/-- A record of the definition is among the functions and methods of the outline. -/
theorem DefLine.RecordedIn.exists_hasFunction {o : Outline} {m : Moment} {width : Nat}
    (h : d.RecordedIn o m width) : ∃ f, o.HasFunction f ∧ d.IsRecord m f := by
  cases h with
  | method _ _ hr _ _ hf _ hrecord => exact ⟨_, .inr ⟨_, hr, hf⟩, hrecord⟩
  | function _ hf _ hrecord => exact ⟨_, .inl hf, hrecord⟩

end

end Indent

open Indent

/-- With its suite on the next lines a definition is recorded as it is written, wherever the scan
comes to its line. With a text behind its colon it is so recorded exactly if the text is blank or
a comment. If a statement stands there, no function and no method is recorded from the line, but
for one with a return type that goes on over the colon. The header of a class is read alike
whatever stands behind its colon. -/
theorem Outline.build_defLine (path : String) {d : DefLine} (hd : d.IsWritten) {g x : List Char}
    (hg : Text.isBlank g = true) {front back suite : List Line} {oneLine manyLines : List Char}
    (hone : Text.lines oneLine = front ++ (g ++ d.text x) :: back)
    (hmany : Text.lines manyLines = front ++ (g ++ d.text []) :: suite) :
    (∀ m, Moment.Reached (Text.lines manyLines) (.start path .indent) m →
      m.index = front.length →
        d.RecordedIn (build path manyLines .indent) m (Text.indentation g)) ∧
      (∀ m, Moment.Reached (Text.lines oneLine) (.start path .indent) m →
        m.index = front.length →
          (d.RecordedIn (build path oneLine .indent) m (Text.indentation g) ↔
            saysNothing (Text.trim x) = true)) ∧
      (saysNothing (Text.trim x) = false → ∀ f, (build path oneLine .indent).HasFunction f →
        f.line = front.length + 1 → ∃ type more, d.type = some type ∧
          f.returnType = some (textOf (type ++ ':' :: more))) ∧
      ∀ c : ClassLine, c.IsWritten → (∀ p ∈ c.params, ']' ∉ p) → ')' ∉ c.list →
        ∀ y ls, firstTrimmed ls = { c with behind := y }.text →
          classDeclaration? ls = some (.classHead c.head) := by
  refine ⟨fun m h hindex => hd.recordedIn_build hg hmany rfl h hindex, fun m h hindex => ?_,
    fun hx f hf hline => hd.exists_longer_build hg hone hx hf hline, fun c hc hp hl y ls hls => ?_⟩
  · refine ⟨fun hrecorded => ?_, fun hx => hd.recordedIn_build hg hone hx h hindex⟩
    -- a record that was made all the same has a return type longer than the one that is written
    by_contra hx
    obtain ⟨f, hf, hrecord⟩ := hrecorded.exists_hasFunction
    obtain ⟨type, more, hd', hreturn⟩ := hd.exists_longer_build hg hone
      (Bool.eq_false_iff.mpr hx) hf (hrecord.line.trans (by rw [hindex]))
    rw [hrecord.returnType, hd', Option.map_some] at hreturn
    have hlength := congrArg List.length (String.ofList_injective (Option.some.inj hreturn))
    simp at hlength
  · exact ClassLine.IsWritten.classDeclaration?_flat (x := { c with behind := y })
      ⟨hc.isName, hc.isItems⟩ hp hl hls

/-- A method with a decorator. -/
def decoratedMethod : List Char :=
  "class A:\n    @b\n    def f(x) -> int:\n        return x\n".toList

/-- The method with its suite behind the colon. -/
def decoratedStub : List Char := "class A:\n    @b\n    def f(x) -> int: return x\n".toList

/-- The method is recorded in its class, with its decorator; with the suite behind the colon it
is not. A class with its body behind the colon is read. -/
theorem build_decoratedMethod :
    let d : DefLine := ⟨false, ['f'], ['x'], some "int".toList⟩
    let front : List Line := ["class A:".toList, "    @b".toList]
    let o := Outline.build "a.py" decoratedMethod .indent
    let stub := Outline.build "a.py" decoratedStub .indent
    let many := Text.lines decoratedMethod
    let one := Text.lines decoratedStub
    let m := ((Moment.start "a.py" .indent).next many).next many
    let k := ((Moment.start "a.py" .indent).next one).next one
    d.IsWritten ∧ many = front ++ ("    ".toList ++ d.text []) :: ["        return x".toList] ∧
      one = front ++ ("    ".toList ++ d.text " return x".toList) :: [] ∧
      Moment.Reached many (.start "a.py" .indent) m ∧
      Moment.Reached one (.start "a.py" .indent) k ∧
      (m.scan.scope.map (·.record.name) = some "A" ∧ m.scan.pending.decorators = ["b"]) ∧
      d.RecordedIn o m 4 ∧ ¬ d.RecordedIn stub k 4 ∧
      (∀ f, stub.HasFunction f → f.line = 3 →
        ∃ more, f.returnType = some (textOf ("int:".toList ++ more))) ∧
      classDeclaration? ["class A(B): pass".toList] =
        some (.classHead { name := "A", base := some "B", interfaces := [], isAbstract := false,
                           exported := true, defaultExport := false }) := by
  intro d front o stub many one m k
  have hd : d.IsWritten := by
    refine ⟨⟨'f', [], rfl, by decide, nofun⟩, by decide, ?_⟩
    rintro t ⟨⟩
    exact ⟨by decide, by decide, by decide, by decide⟩
  have hmany : many = front ++ ("    ".toList ++ d.text []) :: ["        return x".toList] := by
    decide +kernel
  have hone : one = front ++ ("    ".toList ++ d.text " return x".toList) :: [] := by
    decide +kernel
  have hm : Moment.Reached many (.start "a.py" .indent) m :=
    .next (.next .first (by decide +kernel)) (by decide +kernel)
  have hk : Moment.Reached one (.start "a.py" .indent) k :=
    .next (.next .first (by decide +kernel)) (by decide +kernel)
  have hmindex : m.index = 2 := by decide +kernel
  have hkindex : k.index = 2 := by decide +kernel
  have hstate : m.scan.scope.map (·.record.name) = some "A" ∧ m.scan.pending.decorators = ["b"] :=
    by decide +kernel
  let c : ClassLine := ⟨['A'], none, [['B']], []⟩
  have hc : c.IsWritten := ⟨⟨'A', [], rfl, by decide, nofun⟩, by decide⟩
  have hstatement : saysNothing (Text.trim " return x".toList) = false := by decide
  obtain ⟨hrecorded, hiff, hlonger, hclasses⟩ :=
    Outline.build_defLine "a.py" hd (g := "    ".toList) (by decide) hone hmany
  have hwidth : Text.indentation "    ".toList = 4 := by decide
  rw [hwidth] at hrecorded hiff
  have hkept : d.RecordedIn o m 4 := hrecorded m hm hmindex
  have hlost : ¬ d.RecordedIn stub k 4 :=
    mt (hiff k hk hkindex).mp (Bool.eq_false_iff.mp hstatement)
  refine ⟨hd, hmany, hone, hm, hk, hstate, hkept, hlost, ?_, ?_⟩
  · intro f hf hline
    obtain ⟨type, more, ⟨⟩, hreturn⟩ := hlonger hstatement f hf hline
    exact ⟨more, hreturn⟩
  · rw [hclasses c hc nofun (by decide) " pass".toList _ (by decide)]
    decide

/-- A function with its suite behind the colon is not recorded. -/
theorem functions_oneLineSuite :
    (Outline.build "a.py" "def f(): pass\n".toList .indent).functions = [] ∧
      (Outline.build "a.py" "def f():\n    pass\n".toList .indent).functions.map (·.name) =
        ["f"] := by
  decide +kernel

end CodeAtlas
