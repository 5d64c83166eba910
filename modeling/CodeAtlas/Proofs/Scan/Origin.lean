/-
Where records come from.

A scan makes each of its records from one header of the file and from the lines behind it.
`Item.HasOrigin` says from which, for both families and for every kind of record, and
`hasOrigin_of_mem_allItems` that it holds of everything that is recorded. So a law about
the data of a record is a law about headers and extents, and a proof of it never follows
the scan.

What a class has from its header is kept while the class is filled (`ClassScope.opening`);
its members have origins of their own.
-/
import CodeAtlas.Proofs.Scan.Progress

set_option autoImplicit false

namespace CodeAtlas

/-! ## Headers -/

/-- The tables that a family tries, outside classes and inside. -/
def Family.tables : Family → List (List (String × Recogniser))
  | .brace => [Brace.outside, Brace.inside]
  | .indent => [Indent.outside, Indent.inside]

/-- The line with the index is the first of a header that declares the construct. -/
structure Declared (family : Family) (file : List Line) (i : Nat) (c : Construct) : Prop where
  inFile : i < file.length
  hit : ∃ table ∈ family.tables, ∃ name, firstHit table (file.drop i) = some (name, c)

theorem Declared.isLocal {family : Family} {file : List Line} {i : Nat} {c : Construct}
    (h : Declared family file i c) : c.IsLocal (file.drop i) := by
  obtain ⟨table, htable, name, hit⟩ := h.hit
  refine isLocal_of_firstHit ?_ hit
  cases family with
  | brace => exact List.mem_append_left [Indent.outside, Indent.inside] htable
  | indent => exact List.mem_append_right [Brace.outside, Brace.inside] htable

/-- The record of a function or a method is made from its header and from the lines that it
reaches over. -/
structure FunctionRecord.MadeFrom (path : String) (family : Family) (file : List Line)
    (i extent : Nat) (head : FunctionHead) (f : FunctionRecord) : Prop where
  declared : ∃ c, Declared family file i c ∧ c.head? = some head
  ends : i + extent < file.length
  record : ∃ doc decorators,
    let r := functionRecord { path, family } head i extent (file.drop i) doc decorators
    f = r ∨ f = Indent.asMethod r

/-- The record without what is filled in behind the header: the members, and that the class
is abstract, which a method may make it. -/
def ClassRecord.bare (r : ClassRecord) : ClassRecord :=
  { r with methods := [], properties := [], isAbstract := false }

/-- What a class has from its header: the index and the indentation of its line, the lines
from there on, and its record without members. -/
structure ClassOpening where
  start : Nat
  indent : Nat
  text : List Line
  record : ClassRecord

def ClassScope.opening (c : ClassScope) : ClassOpening :=
  ⟨c.start, c.indent, c.text, c.record.bare⟩

section

variable (path : String) (family : Family) (file : List Line)

def FunctionRecord.HasOrigin (f : FunctionRecord) : Prop :=
  ∃ i extent head, f.MadeFrom path family file i extent head

/-- The class is opened by a header of the file, and its methods are made from headers. -/
structure ClassScope.HasOrigin (c : ClassScope) : Prop where
  opened : ∃ i head doc decorators, Declared family file i (.classHead head) ∧
    c.opening = ⟨i, Text.indentation ((file.drop i).headD []), file.drop i,
      (classRecord path head i doc decorators).bare⟩
  methods : ∀ f ∈ c.record.methods, f.HasOrigin path family file

/-- Where an item comes from. -/
def Item.HasOrigin : Item → Prop
  | .function r => r.HasOrigin path family file
  | .classItem r => ∃ c : ClassScope, c.HasOrigin path family file ∧
      c.start ≤ c.stop ∧ c.stop < file.length ∧ r = c.finish
  | .interface r => ∃ i r₀ description full, Declared family file i (.interface r₀) ∧
      r = { r₀.shift i with
        description, fullDoc := full, location := path,
        methods := (r₀.shift i).methods.map fun m => { m with location := path } }
  | .type r => ∃ i r₀ description, Declared family file i (.type r₀) ∧
      r = { r₀.shift i with description, location := path }
  | .constant r => ∃ i r₀ description, Declared family file i (.constant r₀) ∧
      r = { r₀.shift i with description, location := path }
  | .importItem r => ∃ i rs, Declared family file i (.imports rs) ∧
      ∃ r₀ ∈ rs, r = r₀.shift i
  | .exportItem r => ∃ i < file.length, r.line = i + 1

/-- Everything that a moment has recorded has an origin, and so has the class that is open. -/
structure Moment.AllOrigin (m : Moment) : Prop where
  items : ∀ item ∈ m.items, item.HasOrigin path family file
  scope : ∀ c, m.scan.scope = some c → c.HasOrigin path family file

/-- Everything that a call records has an origin, and so has the class that it leaves open. -/
def Step.HasOrigin : Step → Prop
  | .done s items _ | .again s items => (∀ item ∈ items, item.HasOrigin path family file) ∧
      ∀ c, s.scope = some c → c.HasOrigin path family file

end

variable {path : String} {family : Family} {file : List Line} {m : Moment} {c c' : ClassScope}

theorem Moment.AllOrigin.follow (h : m.AllOrigin path family file) {step : Step}
    (hstep : step.HasOrigin path family file) : (m.follow step).AllOrigin path family file := by
  cases step with
  | done s items further | again s items =>
    exact ⟨List.forall_mem_append.mpr ⟨h.items, hstep.1⟩, hstep.2⟩

/-- A call that records nothing, behind which no class is open or the same one. -/
theorem Step.hasOrigin_quiet {s s' : Scan} {further : Nat}
    (h : ∀ c, s.scope = some c → c.HasOrigin path family file) (hscope : s'.scope = s.scope) :
    (Step.done s' [] further).HasOrigin path family file := by
  refine ⟨fun item hitem => by simp at hitem, ?_⟩
  rw [hscope]
  exact h

/-! ## The class that is being filled -/

namespace ClassScope

@[simp] theorem opening_addMethod (c : ClassScope) (f : FunctionRecord) :
    (c.addMethod f).opening = c.opening := rfl

@[simp] theorem opening_addProperty (c : ClassScope) (p : Property) :
    (c.addProperty p).opening = c.opening := by
  unfold addProperty
  split <;> rfl

@[simp] theorem opening_foldl_addProperty (c : ClassScope) (ps : List Property) :
    (ps.foldl addProperty c).opening = c.opening := by
  induction ps generalizing c with
  | nil => rfl
  | cons p ps ih => rw [List.foldl_cons, ih, opening_addProperty]

theorem methods_foldl_addProperty (c : ClassScope) (ps : List Property) :
    (ps.foldl addProperty c).record.methods = c.record.methods := by
  induction ps generalizing c with
  | nil => rfl
  | cons p ps ih => rw [List.foldl_cons, ih, addProperty_methods]

/-- A class that is filled keeps its origin if what is filled in has one. -/
theorem HasOrigin.filled (h : c.HasOrigin path family file) (hopening : c'.opening = c.opening)
    (hmethods : ∀ f ∈ c'.record.methods, f ∈ c.record.methods ∨ f.HasOrigin path family file) :
    c'.HasOrigin path family file := by
  obtain ⟨i, head, doc, decorators, hdecl, heq⟩ := h.opened
  refine ⟨⟨i, head, doc, decorators, hdecl, hopening.trans heq⟩, fun f hf => ?_⟩
  rcases hmethods f hf with hold | hnew
  · exact h.methods f hold
  · exact hnew

end ClassScope

theorem Item.hasOrigin_closed (h : c.HasOrigin path family file) (hkept : c.start ≤ c.stop)
    (hends : c.stop < file.length) : (Item.closed c).HasOrigin path family file :=
  ⟨c, h, hkept, hends, rfl⟩

/-- The record of a function is made in the scan's file. -/
theorem madeFrom_functionRecord {s : Scan} {i extent : Nat} {head : FunctionHead} {c : Construct}
    (hs : s.path = path ∧ s.family = family) (hdecl : Declared family file i c)
    (hhead : c.head? = some head) (hends : i + extent < file.length) (doc : Doc)
    (decorators : List String) :
    (functionRecord s head i extent (file.drop i) doc decorators).MadeFrom path family file i
      extent head := by
  obtain ⟨rfl, rfl⟩ := hs
  exact ⟨⟨c, hdecl, hhead⟩, hends, doc, decorators, .inl rfl⟩

/-! ## The brace family -/

namespace Brace

theorem declared_outside {i : Nat} {name : String} {c : Construct} (hlt : i < file.length)
    (hit : firstHit outside (file.drop i) = some (name, c)) : Declared .brace file i c :=
  ⟨hlt, outside, by simp [Family.tables], name, hit⟩

theorem declared_inside {i : Nat} {name : String} {c : Construct} (hlt : i < file.length)
    (hit : firstHit inside (file.drop i) = some (name, c)) : Declared .brace file i c :=
  ⟨hlt, inside, by simp [Family.tables], name, hit⟩

theorem hasOrigin_of_mem_exportItems {i : Nat} (hlt : i < file.length) {ls : List Line}
    {item : Item} (h : item ∈ exportItems i ls) : item.HasOrigin path .brace file := by
  obtain ⟨r, hr, rfl⟩ := List.mem_map.mp h
  refine ⟨i, hlt, ?_⟩
  simp only [ExportRecord.shift, line_of_mem_exportsOf hr]
  omega

/-- What a line declares comes from that line. -/
theorem Declares.hasOrigin {s : Scan} {i further : Nat} {items : List Item}
    (h : Declares s i (file.drop i) items further) (hs : s.path = path ∧ s.family = .brace)
    (hlt : i < file.length) : ∀ item ∈ items, item.HasOrigin path .brace file := by
  intro item hitem
  -- a body ends within the file, which the record of a function says too
  have hends := h.further_lt (Moment.drop_ne_nil hlt)
  rw [List.length_drop] at hends
  cases h with
  | nothing => simp at hitem
  | imports hit =>
    obtain ⟨r, hr, rfl⟩ := List.mem_map.mp hitem
    obtain ⟨r₀, hr₀, rfl⟩ := List.mem_map.mp hr
    exact ⟨i, _, declared_outside hlt hit, r₀, hr₀, rfl⟩
  | interface hit =>
    rw [List.mem_singleton.mp hitem, ← hs.1]
    exact ⟨i, _, _, _, declared_outside hlt hit, rfl⟩
  | type hit =>
    rw [List.mem_singleton.mp hitem, ← hs.1]
    exact ⟨i, _, _, declared_outside hlt hit, rfl⟩
  | function hit =>
    rw [List.mem_singleton.mp hitem]
    exact ⟨i, _, _,
      madeFrom_functionRecord hs (declared_outside hlt hit) rfl (by omega) _ _⟩
  | constant hit =>
    rw [List.mem_singleton.mp hitem, ← hs.1]
    exact ⟨i, _, _, declared_outside hlt hit, rfl⟩

/-- A function is declared only by the headers of functions and methods. -/
theorem declaration?_of_declared {i : Nat} {head : FunctionHead} {c : Construct}
    (h : Declared .brace file i c) (hhead : c.head? = some head) :
    functionDeclaration? (file.drop i) = some c ∨ arrowDeclaration? (file.drop i) = some c ∨
      methodDeclaration? (file.drop i) = some c := by
  obtain ⟨table, htable, name, hit⟩ := h.hit
  obtain ⟨recognise, hmem, hrow⟩ := exists_row_of_firstHit hit
  have hothers : recognise = functionDeclaration? ∨ recognise = arrowDeclaration? ∨
      recognise = methodDeclaration? ∨ recognise ∈ [importStatement?, classDeclaration?,
        interfaceDeclaration?, aliasDeclaration?, enumDeclaration?, namespaceDeclaration?,
        constantDeclaration?, fieldDeclaration?] := by
    simp only [Family.tables, List.mem_cons, List.not_mem_nil, or_false] at htable
    rcases htable with rfl | rfl
    · simp only [outside, List.mem_cons, List.not_mem_nil, or_false, Prod.mk.injEq] at hmem
      rcases hmem with ⟨-, rfl⟩ | ⟨-, rfl⟩ | ⟨-, rfl⟩ | ⟨-, rfl⟩ | ⟨-, rfl⟩ | ⟨-, rfl⟩ |
        ⟨-, rfl⟩ | ⟨-, rfl⟩ | ⟨-, rfl⟩ <;> simp
    · simp only [inside, List.mem_cons, List.not_mem_nil, or_false, Prod.mk.injEq] at hmem
      rcases hmem with ⟨-, rfl⟩ | ⟨-, rfl⟩ <;> simp
  rcases hothers with rfl | rfl | rfl | hothers
  · exact .inl hrow
  · exact .inr (.inl hrow)
  · exact .inr (.inr hrow)
  · rw [head?_eq_none_of_row hothers hrow] at hhead
    cases hhead

theorem hasOrigin_openedScope {s : Scan} {i : Nat} {name : String} {head : ClassHead}
    (hs : s.path = path) (hlt : i < file.length)
    (hit : firstHit outside (file.drop i) = some (name, .classHead head)) (doc : Doc)
    (decorators : List String) :
    (openedScope s head i (file.drop i) doc decorators).HasOrigin path .brace file := by
  subst hs
  exact ⟨⟨i, head, doc, decorators, declared_outside hlt hit, rfl⟩, fun f hf => by
    simp [openedScope, classRecord] at hf⟩

theorem InsideCase.opening_eq {s s' : Scan} {i further : Nat} {ls : List Line}
    (h : InsideCase s c i ls (s', c', further)) : c'.opening = c.opening := by
  cases h with
  | method | decorator | deep | nothing => rfl
  | property => exact ClassScope.opening_addProperty c _
  | _ => rfl

/-- A call inside a class leaves the class with an origin. -/
theorem InsideCase.hasOrigin {s s' : Scan} {i further : Nat}
    (h : InsideCase s c i (file.drop i) (s', c', further))
    (hs : s.path = path ∧ s.family = .brace) (hlt : i < file.length)
    (hc : c.HasOrigin path .brace file) : c'.HasOrigin path .brace file := by
  refine hc.filled h.opening_eq fun f hf => ?_
  have hends := (h.frame (Moment.drop_ne_nil hlt)).2.2.2.2
  rw [List.length_drop] at hends
  rcases h.methods with hsame | ⟨name, head, -, hit, -, hmore⟩
  · rw [hsame] at hf
    exact .inl hf
  · rw [hmore] at hf
    rcases List.mem_append.mp hf with hold | hnew
    · exact .inl hold
    · rw [List.mem_singleton.mp hnew]
      exact .inr ⟨i, further, head,
        madeFrom_functionRecord hs (declared_inside hlt hit) rfl (by omega) _ _⟩

/-- What a call records or leaves open has an origin. -/
theorem callObeys_hasOrigin (hs : m.scan.path = path ∧ m.scan.family = .brace)
    (hlt : m.index < file.length) :
    CallObeys file m (Item.HasOrigin path .brace file) (ClassScope.HasOrigin path .brace file) where
  exports _ hitem := hasOrigin_of_mem_exportItems hlt hitem
  declares hdecl := hdecl.hasOrigin hs hlt
  opens hit := hasOrigin_openedScope hs.1 hlt hit _ _
  fills _ hcase := hcase.hasOrigin hs hlt

theorem allOrigin_of_move {m' : Moment} (hmove : Move file m m')
    (hs : m.scan.path = path ∧ m.scan.family = .brace) (hlt : m.index < file.length)
    (hfile : m.ClassInFile file) (h : m.AllOrigin path .brace file) :
    m'.AllOrigin path .brace file := by
  obtain ⟨hitems, hscope⟩ := (callObeys_hasOrigin hs hlt).move
    (fun hin hc => Item.hasOrigin_closed hc hin.kept hin.ends) hmove hlt hfile h.items h.scope
  exact ⟨hitems, hscope⟩

end Brace

/-! ## The indentation family -/

namespace Indent

theorem declared_outside {i : Nat} {name : String} {c : Construct} (hlt : i < file.length)
    (hit : firstHit outside (file.drop i) = some (name, c)) : Declared .indent file i c :=
  ⟨hlt, outside, by simp [Family.tables], name, hit⟩

theorem declared_inside {i : Nat} {name : String} {c : Construct} (hlt : i < file.length)
    (hit : firstHit inside (file.drop i) = some (name, c)) : Declared .indent file i c :=
  ⟨hlt, inside, by simp [Family.tables], name, hit⟩

/-- A function is declared only where a definition is read. -/
theorem defDeclaration?_of_declared {i : Nat} {head : FunctionHead} {c : Construct}
    (h : Declared .indent file i c) (hhead : c.head? = some head) :
    defDeclaration? (file.drop i) = some c := by
  obtain ⟨table, htable, name, hit⟩ := h.hit
  obtain ⟨recognise, hmem, hrow⟩ := exists_row_of_firstHit hit
  have hothers : recognise = defDeclaration? ∨
      recognise ∈ [importStatement?, decorator?, classDeclaration?, constant?, attribute?] := by
    simp only [Family.tables, List.mem_cons, List.not_mem_nil, or_false] at htable
    rcases htable with rfl | rfl
    · simp only [outside, List.mem_cons, List.not_mem_nil, or_false, Prod.mk.injEq] at hmem ⊢
      tauto
    · simp only [inside, List.mem_cons, List.not_mem_nil, or_false, Prod.mk.injEq] at hmem ⊢
      tauto
  rcases hothers with rfl | hothers
  · exact hrow
  · rw [head?_eq_none_of_row hothers hrow] at hhead
    cases hhead

theorem line_of_mem_exportsOf {t : List Char} {r : ExportRecord} (h : r ∈ exportsOf t) :
    r.line = 1 := by
  unfold exportsOf at h
  split at h
  · obtain ⟨n, -, rfl⟩ := List.mem_map.mp h
    rfl
  · simp at h

/-- A function ends in the file. -/
theorem bodyExtent_ends {i : Nat} {head : FunctionHead} {c : Construct} (hlt : i < file.length)
    (hlocal : c.IsLocal (file.drop i)) (hhead : c.head? = some head) :
    i + bodyExtent head (file.drop i) < file.length := by
  have hfurther := (hlocal.further_bounds hhead (Moment.drop_ne_nil hlt)).2
  have hends := bodyExtent_lt hfurther
  rw [List.length_drop] at hends
  omega

/-- What a call outside classes records comes from its line. -/
theorem OutsideCase.hasOrigin {s : Scan} {i : Nat} {step : Step}
    (h : OutsideCase s i (file.drop i) step) (hs : s.path = path ∧ s.family = .indent)
    (hlt : i < file.length) (hnone : s.scope = none) : step.HasOrigin path .indent file := by
  have hscope : ∀ c, s.scope = some c → c.HasOrigin path .indent file :=
    fun c hc => by simp [hnone] at hc
  cases h with
  | silent | docstring | decorator | nothing => exact Step.hasOrigin_quiet hscope rfl
  | exports =>
    refine ⟨fun item hitem => ?_, hscope⟩
    obtain ⟨r, hr, rfl⟩ := List.mem_map.mp hitem
    refine ⟨i, hlt, ?_⟩
    simp only [ExportRecord.shift, line_of_mem_exportsOf hr]
    omega
  | imports hit =>
    refine ⟨fun item hitem => ?_, hscope⟩
    obtain ⟨r, hr, rfl⟩ := List.mem_map.mp hitem
    obtain ⟨r₀, hr₀, rfl⟩ := List.mem_map.mp hr
    exact ⟨i, _, declared_outside hlt hit, r₀, hr₀, rfl⟩
  | classHead hit =>
    refine ⟨fun item hitem => by simp at hitem, fun c hc => ?_⟩
    obtain rfl := Option.some.inj hc
    obtain ⟨rfl, -⟩ := hs
    exact ⟨⟨i, _, _, _, declared_outside hlt hit, rfl⟩, fun f hf => by
      simp [openedScope, classRecord] at hf⟩
  -- the body ends within the file
  | @function _ head hit =>
    have hends := bodyExtent_ends hlt (isLocal_of_outside hit) rfl
    refine ⟨List.forall_mem_singleton.mpr ⟨i, bodyExtent head (file.drop i), head, ?_⟩, hscope⟩
    exact madeFrom_functionRecord hs (declared_outside hlt hit) rfl hends _ _
  | constant hit =>
    refine ⟨List.forall_mem_singleton.mpr ?_, hscope⟩
    obtain ⟨rfl, -⟩ := hs
    exact ⟨i, _, _, declared_outside hlt hit, rfl⟩

theorem opening_addMethod (s : Scan) (c : ClassScope) (head : FunctionHead) (i : Nat)
    (ls : List Line) : (addMethod s c head i ls).1.opening = c.opening := by
  rw [addMethod_eq]
  exact ClassScope.opening_foldl_addProperty _ _

theorem methods_addMethod (s : Scan) (c : ClassScope) (head : FunctionHead) (i : Nat)
    (ls : List Line) :
    (addMethod s c head i ls).1.record.methods = c.record.methods ++
      [asMethod (functionRecord s head i (bodyExtent head ls) ls (docOf head ls)
        s.pending.decorators)] := by
  rw [addMethod_eq, ClassScope.addMethod_methods, beforeMethod,
    ClassScope.methods_foldl_addProperty]

/-- A method that is added has an origin, and so has the class behind it. -/
theorem hasOrigin_addMethod {s : Scan} {i : Nat} {name : String} {head : FunctionHead}
    (hs : s.path = path ∧ s.family = .indent) (hlt : i < file.length)
    (hit : firstHit inside (file.drop i) = some (name, .function head))
    (hc : c.HasOrigin path .indent file) :
    (addMethod s c head i (file.drop i)).1.HasOrigin path .indent file := by
  refine hc.filled (opening_addMethod s c head i _) fun f hf => ?_
  rw [methods_addMethod] at hf
  rcases List.mem_append.mp hf with hold | hnew
  · exact .inl hold
  · rw [List.mem_singleton.mp hnew]
    obtain ⟨rfl, hfamily⟩ := hs
    refine .inr ⟨i, _, head, ⟨_, declared_inside hlt hit, rfl⟩,
      bodyExtent_ends hlt (isLocal_of_inside hit) rfl, docOf head (file.drop i),
      s.pending.decorators, .inr ?_⟩
    simp only [functionRecord, hfamily]

/-- What a call inside a class records is the class, which has an origin. -/
theorem InsideCase.hasOrigin {s : Scan} {i : Nat} {step : Step}
    (h : InsideCase s c i (file.drop i) step) (hs : s.path = path ∧ s.family = .indent)
    (hlt : i < file.length) (hin : c.InFile file i) (hc : c.HasOrigin path .indent file) :
    step.HasOrigin path .indent file := by
  -- the end of a class may have been moved on
  have hmoved : ∀ stop, ({ c with stop := stop } : ClassScope).HasOrigin path .indent file :=
    fun stop => ⟨hc.opened, hc.methods⟩
  have hstays : ∀ {s' : Scan} {c' : ClassScope} {further : Nat}, s'.scope = some c' →
      c'.HasOrigin path .indent file → (Step.done s' [] further).HasOrigin path .indent file := by
    intro s' c' further hscope hc'
    refine ⟨fun item hitem => by simp at hitem, fun c hc => ?_⟩
    rw [hscope, Option.some.injEq] at hc
    rw [← hc]
    exact hc'
  cases h with
  | silent => exact hstays rfl hc
  | closes =>
    refine ⟨List.forall_mem_singleton.mpr ?_, fun c hc => by simp at hc⟩
    exact Item.hasOrigin_closed hc hin.kept hin.ends
  | docstring | decorator | nothing => exact hstays rfl (hmoved _)
  | classHead =>
    have hkept := hin.begun
    refine ⟨List.forall_mem_singleton.mpr ?_, fun c hc => by simp at hc⟩
    exact Item.hasOrigin_closed (hmoved i) (Nat.le_of_lt hkept) hlt
  | function hit => exact hstays rfl (hasOrigin_addMethod hs hlt hit (hmoved i))
  | property =>
    refine hstays rfl ((hmoved i).filled (ClassScope.opening_addProperty _ _) fun f hf => ?_)
    rw [ClassScope.addProperty_methods] at hf
    exact .inl hf

end Indent

/-! ## Whole scans -/

/-- At every moment everything recorded has an origin. -/
theorem Moment.Reached.allOrigin (h : Reached file (.start path family) m) :
    m.AllOrigin path family file := by
  induction h with
  | first => exact ⟨fun item hitem => by simp [start] at hitem, fun c hc => by simp [start] at hc⟩
  | @next m hreached hlt ih =>
    have hs := hreached.sameFile
    have hfile := hreached.classInFile
    cases family with
    | brace => exact Brace.allOrigin_of_move (Brace.next_move hs.2) hs hlt hfile ih
    | indent =>
      cases hscope : m.scan.scope with
      | none =>
        obtain ⟨step, hcase, hnext⟩ := Indent.next_outside file hs.2 hscope
        rw [hnext]
        exact ih.follow (hcase.hasOrigin hs hlt hscope)
      | some c =>
        obtain ⟨step, hcase, hnext⟩ := Indent.next_inside file hs.2 hscope
        rw [hnext]
        exact ih.follow (hcase.hasOrigin hs hlt (hfile c hscope) (ih.scope c hscope))

/-- Everything that is recorded in the end has an origin, a class that the end of the file
closed included. -/
theorem hasOrigin_of_mem_allItems {item : Item}
    (hitem : item ∈ (Moment.last path family file).allItems) :
    item.HasOrigin path family file := by
  have hreached := Moment.reached_last path family file
  have horigin := hreached.allOrigin
  rcases List.mem_append.mp hitem with hold | hopen
  · exact horigin.items item hold
  · obtain ⟨c, hc, rfl⟩ := Option.map_eq_some_iff.mp (Option.mem_toList.mp hopen)
    have hin := hreached.classInFile c hc
    exact Item.hasOrigin_closed (horigin.scope c hc) hin.kept hin.ends

/-- Functions and methods are made from headers of the file. -/
theorem hasOrigin_callables (path : String) (content : List Char) (family : Family) :
    ∀ f ∈ (Outline.build path content family).functions ++
      (Outline.build path content family).methods,
      f.HasOrigin path family (Text.lines content) := by
  have hholds := Outline.holds_build path content family
  intro f hf
  rcases List.mem_append.mp hf with hfunction | hmethod
  · exact hasOrigin_of_mem_allItems (hholds.mem_functions.mp hfunction)
  · obtain ⟨c, hc, hmem⟩ := List.mem_flatMap.mp hmethod
    obtain ⟨scope, hscope, -, -, rfl⟩ := hasOrigin_of_mem_allItems (hholds.mem_classes.mp hc)
    exact hscope.methods f hmem

/-! ## Methods of interfaces -/

/-- In the brace family only the row of interfaces answers with an interface. -/
theorem Brace.interfaceDeclaration?_of_hit {table : List (String × Recogniser)} {ls : List Line}
    {name : String} {r : InterfaceRecord} (htable : table ∈ Family.brace.tables)
    (hit : firstHit table ls = some (name, .interface r)) :
    Brace.interfaceDeclaration? ls = some (.interface r) := by
  obtain ⟨recognise, hmem, hrow⟩ := exists_row_of_firstHit hit
  simp only [Family.tables, List.mem_cons, List.not_mem_nil, or_false] at htable
  rcases htable with rfl | rfl
  · simp only [Brace.outside, List.mem_cons, List.not_mem_nil, or_false, Prod.mk.injEq] at hmem
    rcases hmem with ⟨-, rfl⟩ | ⟨-, rfl⟩ | ⟨-, rfl⟩ | ⟨-, rfl⟩ | ⟨-, rfl⟩ | ⟨-, rfl⟩ |
      ⟨-, rfl⟩ | ⟨-, rfl⟩ | ⟨-, rfl⟩
    · simp only [Brace.importStatement?, Option.bind_eq_bind] at hrow
      split at hrow
      · cases hrow
      · obtain ⟨-, -, hrow⟩ := Option.bind_eq_some_iff.mp hrow
        split at hrow
        · cases hrow
        · simp [Option.bind_eq_some_iff] at hrow
    · simp [Brace.classDeclaration?, Option.bind_eq_some_iff] at hrow
    · exact hrow
    · simp [Brace.aliasDeclaration?, Option.bind_eq_some_iff] at hrow
    · simp [Brace.enumDeclaration?, Option.bind_eq_some_iff] at hrow
    · simp [Brace.namespaceDeclaration?, Option.bind_eq_some_iff] at hrow
    · simp [Brace.functionDeclaration?, Option.bind_eq_some_iff] at hrow
    · simp [Brace.arrowDeclaration?, Option.bind_eq_some_iff] at hrow
    · simp [Brace.constantDeclaration?, Option.bind_eq_some_iff] at hrow
  · simp only [Brace.inside, List.mem_cons, List.not_mem_nil, or_false, Prod.mk.injEq] at hmem
    rcases hmem with ⟨-, rfl⟩ | ⟨-, rfl⟩
    · simp [Brace.methodDeclaration?, Option.bind_eq_some_iff] at hrow
    · simp [Brace.fieldDeclaration?, Option.bind_eq_some_iff] at hrow

/-- In the other family no row does. -/
theorem Indent.not_interface_of_hit {table : List (String × Recogniser)} {ls : List Line}
    {name : String} {r : InterfaceRecord} (htable : table ∈ Family.indent.tables) :
    firstHit table ls ≠ some (name, .interface r) := by
  intro hit
  obtain ⟨recognise, hmem, hrow⟩ := exists_row_of_firstHit hit
  simp only [Family.tables, List.mem_cons, List.not_mem_nil, or_false] at htable
  rcases htable with rfl | rfl
  · simp only [Indent.outside, List.mem_cons, List.not_mem_nil, or_false, Prod.mk.injEq] at hmem
    rcases hmem with ⟨-, rfl⟩ | ⟨-, rfl⟩ | ⟨-, rfl⟩ | ⟨-, rfl⟩ | ⟨-, rfl⟩
    · simp only [Indent.importStatement?] at hrow
      split at hrow
      · cases hrow
      · simp [Option.bind_eq_some_iff] at hrow
    · simp [Indent.decorator?, Option.bind_eq_some_iff] at hrow
    · simp [Indent.classDeclaration?, Option.bind_eq_some_iff] at hrow
    · simp [Indent.defDeclaration?, Option.bind_eq_some_iff] at hrow
    · simp [Indent.constant?, Option.bind_eq_some_iff] at hrow
  · simp only [Indent.inside, List.mem_cons, List.not_mem_nil, or_false, Prod.mk.injEq] at hmem
    rcases hmem with ⟨-, rfl⟩ | ⟨-, rfl⟩ | ⟨-, rfl⟩ | ⟨-, rfl⟩
    · simp [Indent.decorator?, Option.bind_eq_some_iff] at hrow
    · simp [Indent.classDeclaration?, Option.bind_eq_some_iff] at hrow
    · simp [Indent.defDeclaration?, Option.bind_eq_some_iff] at hrow
    · simp only [Indent.attribute?] at hrow
      split at hrow
      · cases hrow
      · simp at hrow

/-- Nothing of the record was read from a body. -/
structure FunctionRecord.Bodiless (f : FunctionRecord) : Prop where
  complexity : f.complexity = 1
  dependencies : f.dependencies = []

/-- A method of an interface has no body. -/
theorem bodiless_of_declared {i : Nat} {r : InterfaceRecord} {f : FunctionRecord}
    (h : Declared family file i (.interface r)) (hf : f ∈ r.methods) : f.Bodiless := by
  obtain ⟨table, htable, name, hit⟩ := h.hit
  have hdecl : Brace.interfaceDeclaration? (file.drop i) = some (.interface r) := by
    cases family with
    | brace => exact Brace.interfaceDeclaration?_of_hit htable hit
    | indent => exact absurd hit (Indent.not_interface_of_hit htable)
  simp only [Brace.interfaceDeclaration?, Option.bind_eq_bind, Option.bind_eq_some_iff] at hdecl
  obtain ⟨m, -, hdecl⟩ := hdecl
  cases hdecl
  rcases Brace.mem_methods_addMembers hf with hold | ⟨i, l, -, -, hmember⟩
  · simp at hold
  · simp only [Brace.memberMethod?, Option.bind_eq_bind, Option.bind_eq_some_iff] at hmember
    obtain ⟨m, -, ⟨inner, rest⟩, -, tail, -, hmember⟩ := hmember
    cases hmember
    exact ⟨rfl, rfl⟩

theorem bodiless_of_mem_interfaces {content : List Char} {r : InterfaceRecord} {f : FunctionRecord}
    (hr : r ∈ (Outline.build path content family).interfaces) (hf : f ∈ r.methods) :
    f.Bodiless := by
  have hholds := Outline.holds_build path content family
  obtain ⟨i, r₀, description, full, hdecl, rfl⟩ :=
    hasOrigin_of_mem_allItems (hholds.mem_interfaces.mp hr)
  -- a method is moved down and told its file, and its body is none all the same
  obtain ⟨g, hg, rfl⟩ := List.mem_map.mp hf
  obtain ⟨g₀, hg₀, rfl⟩ := List.mem_map.mp hg
  have hbare := bodiless_of_declared (f := g₀) hdecl hg₀
  exact ⟨hbare.complexity, hbare.dependencies⟩

end CodeAtlas
