/-
What a record of the brace family is documented by.

What is pending is a doc block that was read line by line, and everything that a line can do
to it is said by the cases of a call: it is kept behind comments and decorators and dropped
behind anything else. So a record takes its doc comment from a block with nothing but
comments and decorators in between.

There is one exception. The last line of a class is passed unread: it drops nothing, and a
comment in front of it is still pending outside the class, even one whose end is still to
come. So what a record outside classes takes may stand in a class that has ended meanwhile
(`documented_danglingComment`), and the invariant counts the last lines of classes as lines
that are left unread. Where no class ends between the block and the record, the block stands
where the record stands, outside classes and with nothing in between; a member of a class
has no class that could end there (`Outline.documented_build`).
-/
import CodeAtlas.Proofs.Doc.Block
import CodeAtlas.Proofs.Scan.Tiling
import CodeAtlas.Proofs.Scan.Origin

set_option autoImplicit false

namespace CodeAtlas

/-! ## Doc comments of records -/

def FunctionRecord.doc (r : FunctionRecord) : Doc := ⟨r.description, r.fullDoc⟩

def ClassRecord.doc (r : ClassRecord) : Doc := ⟨r.description, r.fullDoc⟩

def InterfaceRecord.doc (r : InterfaceRecord) : Doc := ⟨r.description, r.fullDoc⟩

/-- The item has the doc comment, or what its record keeps of it. -/
def Item.Takes (d : Doc) : Item → Prop
  | .function r => d = r.doc
  | .classItem r => d = r.doc
  | .interface r => d = r.doc
  | .type r => d.description = r.description
  | .constant r => d.description = r.description
  | .importItem _ | .exportItem _ => True

/-- The record says something of a doc comment. -/
def Item.IsDocumented : Item → Prop
  | .function r => r.doc ≠ {}
  | .classItem r => r.doc ≠ {}
  | .interface r => r.doc ≠ {}
  | .type r => r.description ≠ none
  | .constant r => r.description ≠ none
  | .importItem _ | .exportItem _ => False

theorem Item.ne_empty_of_takes {a : Item} {d : Doc} (h : a.Takes d) (hdoc : a.IsDocumented) :
    d ≠ {} := by
  rintro rfl
  cases a with
  | function | classItem | interface => exact hdoc h.symm
  | type | constant => exact hdoc h.symm
  | importItem | exportItem => exact hdoc

/-- Line `n` is the last one of a class of the list. -/
def EndsClass (classes : List ClassRecord) (n : Nat) : Prop :=
  ∃ c ∈ classes, c.line + c.lineCount = n + 1

theorem EndsClass.mono {classes more : List ClassRecord} {n : Nat} (h : EndsClass classes n) :
    EndsClass (classes ++ more) n := by
  obtain ⟨c, hc, hlast⟩ := h
  exact ⟨c, List.mem_append_left _ hc, hlast⟩

namespace Brace

/-- The methods and properties of the class that say something take it from blocks of the
class, with nothing but comments and decorators in between. -/
structure MembersDocumented (file : List Line) (r : ClassRecord) (last : Nat) : Prop where
  methods : ∀ f ∈ r.methods, f.doc ≠ {} →
    f.line ≤ last ∧ Attached file nowhere r.line f.line (· = f.doc)
  properties : ∀ p ∈ r.properties, p.description ≠ none → ∃ n ≤ last,
    (∃ p₀ name, firstHit inside (file.drop (n - 1)) = some (name, .property p₀) ∧
      p = { p₀ with description := p.description }) ∧
    Attached file nowhere r.line n (·.description = p.description)

/-- What the item says was taken from a block, but for the last lines of the classes with
nothing but comments and decorators in between; and so were its members. -/
structure ItemDocumented (file : List Line) (classes : List ClassRecord) (a : Item) : Prop where
  taken : a.IsDocumented → Attached file (EndsClass classes) 0 a.line a.Takes
  members : ∀ c, a = .classItem c → MembersDocumented file c (c.line + c.lineCount - 1)

variable {file : List Line}

theorem ItemDocumented.mono {classes more : List ClassRecord} {a : Item}
    (h : ItemDocumented file classes a) : ItemDocumented file (classes ++ more) a where
  taken hdoc := (h.taken hdoc).mono (fun _ => EndsClass.mono) fun _ => id
  members := h.members

theorem MembersDocumented.mono {r : ClassRecord} {last last' : Nat}
    (h : MembersDocumented file r last) (hle : last ≤ last') : MembersDocumented file r last' where
  methods f hf hdoc := by
    obtain ⟨hline, hattached⟩ := h.methods f hf hdoc
    exact ⟨Nat.le_trans hline hle, hattached⟩
  properties p hp hdoc := by
    obtain ⟨n, hn, hdecl, hattached⟩ := h.properties p hp hdoc
    exact ⟨n, Nat.le_trans hn hle, hdecl, hattached⟩

/-! ## What is pending -/

section

variable {unread : Nat → Prop} {above n : Nat} {s s' : Scan}

/-- A comment line goes on with a block, begins one or stands behind one. -/
theorem buffered_of_comment (h : Buffered file unread above n s.pending.doc s.inComment)
    (habove : above < n) (hline : commentLine? s (Text.trim (lineAt file n)) = some s') :
    Buffered file unread above (n + 1) s'.pending.doc s'.inComment := by
  cases commentLine?_cases hline with
  | insideDoc hopen => exact h.push hopen
  | inside hclosed hcomment =>
    exact h.behind hclosed (by rw [commentBehind?, if_pos hcomment])
  | beginsDoc _ hcomment hdoc =>
    rw [Scan.withPending, hcomment]
    exact .start habove hdoc
  | begins hclosed hcomment hdoc hstarts =>
    exact h.behind hclosed (by simp [commentBehind?, hcomment, hdoc, hstarts])
  | slashes hclosed hcomment hslashes =>
    have hstarts := not_starts_comment_of_slashes hslashes
    have hdoc := not_starts_doc_of_comment hstarts
    exact h.behind hclosed (by simp [commentBehind?, hcomment, hdoc, hstarts, hslashes])

/-- A decorator stands behind the block. -/
theorem buffered_of_decorator (h : Buffered file unread above n s.pending.doc s.inComment)
    (hcode : commentLine? s (Text.trim (lineAt file n)) = none) {d : List Char}
    (hline : Text.trim (lineAt file n) = '@' :: d) :
    Buffered file unread above (n + 1) s.pending.doc s.inComment := by
  obtain ⟨hclosed, hnone⟩ := calm_of_commentLine? hcode
  refine h.behind hclosed ?_
  rw [hline, hnone]
  simp [commentBehind?, Text.starts]

/-- What a declaration takes, it takes from a block. -/
theorem attached_of_docNow (h : Buffered file unread above n s.pending.doc s.inComment)
    (hcode : commentLine? s (Text.trim (lineAt file n)) = none) (hdoc : s.pending.docNow ≠ {}) :
    Attached file unread above n (· = s.pending.docNow) := by
  rw [(calm_of_commentLine? hcode).2] at h
  unfold Pending.docNow at hdoc ⊢
  cases hsome : s.pending.doc.doc? with
  | none => simp [hsome] at hdoc
  | some d => exact h.attached hsome

end

/-! ## Calls outside classes -/

/-- A declaration takes what is pending. -/
theorem Declares.takes {s : Scan} {i further : Nat} {ls : List Line} {items : List Item}
    (h : Declares s i ls items further) :
    ∀ a ∈ items, a.Takes s.pending.docNow ∧ ∀ c, a ≠ .classItem c := by
  intro a ha
  cases h with
  | nothing => simp at ha
  | imports =>
    obtain ⟨r, -, rfl⟩ := List.mem_map.mp ha
    exact ⟨trivial, fun c hc => by cases hc⟩
  | interface | type | function | constant =>
    rw [List.mem_singleton.mp ha]
    exact ⟨rfl, fun c hc => by cases hc⟩

/-- At a moment what has been recorded has its comments from blocks, and what is pending is a
block that was read: inside a class one of that class. -/
structure Documented (file : List Line) (m : Moment) : Prop where
  items : ∀ a ∈ m.items, ItemDocumented file (m.items.filterMap Item.class?) a
  outside : m.scan.scope = none → Buffered file (EndsClass (m.items.filterMap Item.class?)) 0
    (m.index + 1) m.scan.pending.doc m.scan.inComment
  inside : ∀ c, m.scan.scope = some c →
    Buffered file nowhere c.record.line (m.index + 1) m.scan.pending.doc m.scan.inComment
  header : ∀ c, m.scan.scope = some c → c.record.doc ≠ {} →
    Attached file (EndsClass (m.items.filterMap Item.class?)) 0 c.record.line (· = c.record.doc)
  members : ∀ c, m.scan.scope = some c → MembersDocumented file c.record c.stop

variable {m : Moment} {s' : Scan} {items : List Item} {further : Nat}

/-- Items that are added keep what is there. -/
theorem Documented.items_append (h : Documented file m)
    (hnew : ∀ a ∈ items, ItemDocumented file ((m.items ++ items).filterMap Item.class?) a) :
    ∀ a ∈ m.items ++ items, ItemDocumented file ((m.items ++ items).filterMap Item.class?) a := by
  refine List.forall_mem_append.mpr ⟨fun a ha => ?_, hnew⟩
  rw [List.filterMap_append]
  exact (h.items a ha).mono

/-- A call outside classes that opens none. -/
theorem documented_of_outside (h : Documented file m) (hnone' : s'.scope = none)
    (hnew : ∀ a ∈ items, ItemDocumented file ((m.items ++ items).filterMap Item.class?) a)
    (hbuffered : Buffered file (EndsClass (m.items.filterMap Item.class?)) 0
      (m.index + further + 2) s'.pending.doc s'.inComment) :
    Documented file (m.follow (.done s' items further)) := by
  refine ⟨h.items_append hnew, fun _ => ?_, fun c hc => ?_, fun c hc => ?_, fun c hc => ?_⟩
  · simp only [Moment.follow, List.filterMap_append]
    exact hbuffered.mono (fun _ => EndsClass.mono) (Nat.le_refl 0)
  · simp [Moment.follow, hnone'] at hc
  · simp [Moment.follow, hnone'] at hc
  · simp [Moment.follow, hnone'] at hc

/-- What stands on line `n` and takes what is pending. -/
theorem itemDocumented_of_takes {a : Item} {classes more : List ClassRecord} {s : Scan} {n : Nat}
    (h : Buffered file (EndsClass classes) 0 n s.pending.doc s.inComment)
    (hcode : commentLine? s (Text.trim (lineAt file n)) = none) (hline : a.line = n)
    (htakes : a.Takes s.pending.docNow)
    (hmembers : ∀ c, a = .classItem c → MembersDocumented file c (c.line + c.lineCount - 1)) :
    ItemDocumented file (classes ++ more) a where
  taken hdoc := by
    rw [hline]
    refine (attached_of_docNow h hcode (Item.ne_empty_of_takes htakes hdoc)).mono
      (fun _ => EndsClass.mono) ?_
    rintro d rfl
    exact htakes
  members := hmembers

theorem itemDocumented_of_mem_exportItems {i : Nat} {ls : List Line} {a : Item}
    {classes : List ClassRecord} (h : a ∈ exportItems i ls) : ItemDocumented file classes a := by
  obtain ⟨r, rfl, -⟩ := line_of_mem_exportItems h
  exact ⟨fun hdoc => hdoc.elim, fun c hc => by cases hc⟩

theorem membersDocumented_finish {c : ClassScope} {last : Nat}
    (h : MembersDocumented file c.record last) : MembersDocumented file c.finish last :=
  ⟨h.methods, h.properties⟩

theorem membersDocumented_nil {r : ClassRecord} {last : Nat} (hmethods : r.methods = [])
    (hproperties : r.properties = []) : MembersDocumented file r last where
  methods f hf := by simp [hmethods] at hf
  properties p hp := by simp [hproperties] at hp

/-- A class that is opened has taken what was pending, and has no members. -/
theorem documented_of_opens {head : ClassHead} {decorators : List String}
    {exports : List Item} {step : Step} (h : Documented file m) (hnone : m.scan.scope = none)
    (hcode : commentLine? m.scan (firstTrimmed (file.drop m.index)) = none)
    (hexports : exports = exportItems m.index (file.drop m.index))
    (hstep : step = withItems exports (openClass m.scan.forget head m.index (file.drop m.index)
      m.scan.pending.docNow decorators)) : Documented file (m.follow step) := by
  have hbuffered := h.outside hnone
  rw [firstTrimmed, ← lineAt_succ] at hcode
  generalize hscope : openedScope m.scan.forget head m.index (file.drop m.index)
    m.scan.pending.docNow decorators = c
  have hline : c.record.line = m.index + 1 := by rw [← hscope]; rfl
  have hdoc : c.record.doc = m.scan.pending.docNow := by rw [← hscope]; rfl
  have hmembers : ∀ last, MembersDocumented file c.record last := by
    intro last
    rw [← hscope]
    exact membersDocumented_nil rfl rfl
  have hexport : ∀ {classes : List ClassRecord}, ∀ a ∈ exports, ItemDocumented file classes a := by
    rw [hexports]
    exact fun a ha => itemDocumented_of_mem_exportItems ha
  rw [openClass_eq, hscope] at hstep
  split at hstep
  · -- the class is closed on its first line
    rw [hstep]
    refine documented_of_outside h hnone (List.forall_mem_append.mpr ⟨hexport, ?_⟩) (.empty _)
    rw [List.forall_mem_singleton, List.filterMap_append]
    refine itemDocumented_of_takes hbuffered hcode hline hdoc.symm fun c' hc' => ?_
    cases hc'
    exact membersDocumented_finish (hmembers _)
  -- the class stays open, so what it took is kept until it is closed
  · rw [hstep, withItems, List.append_nil]
    have hopen : ∀ {d : ClassScope}, (m.follow
        (.done { m.scan.forget with scope := some c } exports 0)).scan.scope = some d → d = c :=
      fun hd => (Option.some.inj hd).symm
    refine ⟨h.items_append hexport, fun hno => ?_, fun d hd => ?_, fun d hd => ?_,
      fun d hd => ?_⟩
    · cases hno
    · exact .empty _
    · rw [hopen hd, hline, hdoc]
      intro hsays
      refine (attached_of_docNow hbuffered hcode hsays).mono (fun _ hends => ?_) fun _ => id
      simp only [Moment.follow, List.filterMap_append]
      exact hends.mono
    · rw [hopen hd]
      exact hmembers _

theorem documented_outside (h : Documented file m) (hfamily : m.scan.family = .brace)
    (hnone : m.scan.scope = none) : Documented file (m.next file) := by
  have hbuffered := h.outside hnone
  have hquiet : ∀ a ∈ ([] : List Item),
      ItemDocumented file ((m.items ++ []).filterMap Item.class?) a := fun a ha => by simp at ha
  obtain ⟨step, hcase, hnext⟩ := next_outside file hfamily hnone
  rw [hnext]
  cases hcase with
  | comment hcomment =>
    have hscope := (commentLine?_frame hcomment).2.1.trans hnone
    rw [firstTrimmed, ← lineAt_succ] at hcomment
    exact documented_of_outside h hscope hquiet
      (buffered_of_comment hbuffered (Nat.succ_pos _) hcomment)
  -- both drop the doc, so nothing is pending behind them
  | blank | deep => exact documented_of_outside h hnone hquiet (.empty _)
  | decorator hcode _ hline =>
    rw [firstTrimmed, ← lineAt_succ] at hcode hline
    have hbehind := buffered_of_decorator hbuffered hcode hline
    exact documented_of_outside h hnone hquiet hbehind
  | declares hcode _ hdecl =>
    rw [firstTrimmed, ← lineAt_succ] at hcode
    refine documented_of_outside h hnone (List.forall_mem_append.mpr ⟨fun a ha => ?_,
      fun a ha => ?_⟩) (.empty _)
    · exact itemDocumented_of_mem_exportItems ha
    · obtain ⟨htakes, hclass⟩ := hdecl.takes a ha
      rw [List.filterMap_append]
      exact itemDocumented_of_takes hbuffered hcode (hdecl.standsAt a ha).line htakes
        fun c hc => absurd hc (hclass c)
  | classHead hcode => exact documented_of_opens h hnone hcode rfl rfl

/-! ## Calls inside a class -/

section

variable {s : Scan} {c c' : ClassScope} {i : Nat}

/-- A method takes what is pending. -/
theorem membersDocumented_addMethod {f : FunctionRecord}
    (h : MembersDocumented file c.record c.stop) (hline : f.line ≤ c.stop)
    (hattached : f.doc ≠ {} → Attached file nowhere c.record.line f.line (· = f.doc)) :
    MembersDocumented file (c.addMethod f).record c.stop where
  methods g hg hdoc := by
    rcases List.mem_append.mp hg with hold | hnew
    · exact h.methods g hold hdoc
    · obtain rfl := List.mem_singleton.mp hnew
      exact ⟨hline, hattached hdoc⟩
  properties := h.properties

/-- A property takes what is pending, if it is new. -/
theorem membersDocumented_addProperty {p : Property} {n : Nat} {name : String} {p₀ : Property}
    (h : MembersDocumented file c.record c.stop) (hline : n ≤ c.stop)
    (hit : firstHit inside (file.drop (n - 1)) = some (name, .property p₀))
    (hp : p = { p₀ with description := p.description })
    (hattached : p.description ≠ none →
      Attached file nowhere c.record.line n (·.description = p.description)) :
    MembersDocumented file (c.addProperty p).record c.stop := by
  unfold ClassScope.addProperty
  split
  · exact h
  · refine ⟨h.methods, fun q hq hdoc => ?_⟩
    rcases List.mem_append.mp hq with hold | hnew
    · exact h.properties q hold hdoc
    · obtain rfl := List.mem_singleton.mp hnew
      exact ⟨n, hline, ⟨p₀, name, hit, hp⟩, hattached hdoc⟩

/-- A call inside a class passes the last line of the class unread, or leaves a block of the
class pending and takes what its member says from one. -/
theorem InsideCase.documented {s' : Scan} {further : Nat}
    (h : InsideCase s c i (file.drop i) (s', c', further)) (habove : c.record.line < i + 1)
    (hbuffered : Buffered file nowhere c.record.line (i + 1) s.pending.doc s.inComment)
    (hmembers : MembersDocumented file c.record c.stop) :
    (c.stop ≤ i ∧ s' = s ∧ c' = c ∧ further = 0) ∨
      i + further ≤ c.stop ∧ Buffered file nowhere c.record.line (i + further + 2)
        s'.pending.doc s'.inComment ∧ MembersDocumented file c'.record c.stop := by
  have htakes : commentLine? s (Text.trim (lineAt file (i + 1))) = none →
      s.pending.docNow ≠ {} → Attached file nowhere c.record.line (i + 1)
        (· = s.pending.docNow) := fun hcode => attached_of_docNow hbuffered hcode
  rw [lineAt_succ] at htakes
  cases h with
  | closing hstop => exact .inl ⟨hstop, rfl, rfl, rfl⟩
  | comment hlt hcomment =>
    rw [firstTrimmed, ← lineAt_succ] at hcomment
    exact .inr ⟨Nat.le_of_lt hlt, buffered_of_comment hbuffered habove hcomment, hmembers⟩
  | blank hlt | deep hlt | nothing hlt =>
    exact .inr ⟨Nat.le_of_lt hlt, .empty _, hmembers⟩
  | decorator hlt hcode _ hline =>
    rw [firstTrimmed, ← lineAt_succ] at hcode hline
    have hbehind := buffered_of_decorator hbuffered hcode hline
    exact .inr ⟨Nat.le_of_lt hlt, hbehind, hmembers⟩
  | method hlt hcode _ _ hextent =>
    refine .inr ⟨by omega, .empty _, ?_⟩
    exact membersDocumented_addMethod (c := deepen c further _) hmembers hlt (htakes hcode)
  | @property name p hlt hcode _ hit =>
    refine .inr ⟨Nat.le_of_lt hlt, .empty _, ?_⟩
    -- a property takes the description alone, so only that part of the block is claimed of it
    refine membersDocumented_addProperty (n := i + 1) hmembers hlt hit rfl fun hdoc => ?_
    refine (htakes hcode fun hempty => hdoc ?_).mono (fun _ => id) ?_
    · simp [hempty]
    · rintro d rfl
      rfl

end

/-- A class that is closed is recorded with what it says. -/
theorem documented_of_closes {c : ClassScope} (h : Documented file m)
    (hheader : c.record.doc ≠ {} → Attached file (EndsClass (m.items.filterMap Item.class?)) 0
      c.record.line (· = c.record.doc))
    (hmembers : MembersDocumented file c.record (c.finish.line + c.finish.lineCount - 1))
    (hbuffered : Buffered file (EndsClass (m.items.filterMap Item.class? ++ [c.finish])) 0
      (m.index + further + 2) s'.pending.doc s'.inComment) :
    Documented file (m.follow (.done s'.leaveClass [.closed c] further)) := by
  have hclasses : (m.items ++ [Item.closed c]).filterMap Item.class? =
      m.items.filterMap Item.class? ++ [c.finish] := List.filterMap_append
  refine ⟨h.items_append (List.forall_mem_singleton.mpr ?_), fun _ => ?_, fun d hd => ?_,
    fun d hd => ?_, fun d hd => ?_⟩
  · rw [hclasses]
    refine ⟨fun hdoc => ?_, fun c' hc' => ?_⟩
    · exact (hheader hdoc).mono (fun _ => EndsClass.mono) fun _ => id
    · cases hc'
      exact membersDocumented_finish hmembers
  · simp only [Moment.follow, hclasses]
    exact hbuffered
  · cases hd
  · cases hd
  · cases hd

/-- The last line of a class that is passed unread is the last line of its record. -/
theorem last_of_closing {path : String} {c : ClassScope}
    (hreached : Moment.Reached file (.start path .brace) m) (hsome : m.scan.scope = some c)
    (hstop : c.stop ≤ m.index) : c.finish.line + c.finish.lineCount = m.index + 1 + 1 := by
  have hkept := (hreached.classInFile c hsome).kept
  obtain ⟨-, hle, hline, -⟩ := (tiled_of_reached hreached).inside c hsome
  simp only [ClassScope.finish_line, ClassScope.finish_lineCount, ClassScope.extent, hline]
  omega

/-- A class that is closed is recorded with what it says; the last line, if it was passed
unread, leaves what is pending as it is. -/
theorem documented_inside {path : String} {c : ClassScope} (h : Documented file m)
    (hreached : Moment.Reached file (.start path .brace) m) (hlt : m.index < file.length)
    (hsome : m.scan.scope = some c) : Documented file (m.next file) := by
  have hne := Moment.drop_ne_nil hlt
  have hbegun := (hreached.classInFile c hsome).begun
  have hkept := (hreached.classInFile c hsome).kept
  obtain ⟨-, hstop, hline, -⟩ := (tiled_of_reached hreached).inside c hsome
  obtain ⟨s', c', further, hcase, hnext⟩ :=
    next_inside file (sameFile_of_reached hreached).2 hsome
  obtain ⟨hstart', hstop', hline', -, -⟩ := hcase.frame hne
  have hdoc' : c'.record.doc = c.record.doc := congrArg (·.record.doc) hcase.opening_eq
  rw [hnext]
  have hheader := h.header c hsome
  rcases hcase.documented (by omega) (h.inside c hsome) (h.members c hsome) with
    ⟨hend, rfl, rfl, rfl⟩ | ⟨hwithin, hbuffered, hmembers⟩
  · -- the line is the last one of the class
    have hlast := last_of_closing hreached hsome hend
    have hends : EndsClass (m.items.filterMap Item.class? ++ [c'.finish]) (m.index + 1) :=
      ⟨c'.finish, List.mem_append_right _ (List.mem_singleton.mpr rfl), hlast⟩
    rw [if_pos (by omega)]
    -- the line was left unread, so what was pending in the class is pending behind it
    refine documented_of_closes h hheader ((h.members c' hsome).mono (by omega)) ?_
    exact ((h.inside c' hsome).mono (fun _ => False.elim) (Nat.zero_le _)).pass hends
  · rw [← hline'] at hbuffered hheader
    rw [← hstop'] at hmembers hwithin
    rw [← hdoc'] at hheader
    split
    · refine documented_of_closes h hheader (hmembers.mono ?_)
        (hbuffered.mono (fun _ => False.elim) (Nat.zero_le _))
      simp only [ClassScope.finish_line, ClassScope.finish_lineCount, ClassScope.extent]
      omega
    · have hopen : ∀ {d : ClassScope}, (m.follow
          (.done { s' with scope := some c' } [] further)).scan.scope = some d → d = c' :=
        fun hd => (Option.some.inj hd).symm
      refine ⟨h.items_append fun a ha => by simp at ha, fun hno => ?_, fun d hd => ?_,
        fun d hd => ?_, fun d hd => ?_⟩
      · cases hno
      · rw [hopen hd]
        exact hbuffered
      · rw [hopen hd]
        simpa only [Moment.follow, List.append_nil] using hheader
      · rw [hopen hd]
        exact hmembers

/-- At every moment of a scan. -/
theorem documented_of_reached {path : String} (h : Moment.Reached file (.start path .brace) m) :
    Documented file m := by
  induction h with
  | first =>
    have hno : ∀ c, (Moment.start path .brace).scan.scope ≠ some c := by
      intro c hc
      cases hc
    exact ⟨fun a ha => by simp [Moment.start] at ha, fun _ => .empty _,
      fun c hc => absurd hc (hno c), fun c hc => absurd hc (hno c), fun c hc => absurd hc (hno c)⟩
  | @next m hreached hlt ih =>
    cases hscope : m.scan.scope with
    | none => exact documented_outside ih (sameFile_of_reached hreached).2 hscope
    | some c => exact documented_inside ih hreached hlt hscope

/-- Everything that is recorded in the end; behind the last line no class is open. -/
theorem documented_allItems (path : String) (file : List Line) :
    ∀ a ∈ (Moment.last path .brace file).allItems,
      ItemDocumented file ((Moment.last path .brace file).allItems.filterMap Item.class?) a := by
  have hitems := (documented_of_reached (Moment.reached_last path .brace file)).items
  rw [Moment.allItems, scope_last, Option.map_none, Option.toList_none, List.append_nil]
  exact hitems

end Brace

/-! ## Outlines -/

/-- The comment was read from a block in front of line `n`, with nothing but comments and
decorators in between, apart from last lines of classes, which are passed unread. If no class
ends there, nothing was passed unread, and none of the lines belongs to a class. -/
def Outline.Precedes (file : List Line) (o : Outline) (n : Nat) (agrees : Doc → Prop) : Prop :=
  ∃ first block between, 0 < first ∧ Reads file (EndsClass o.classes) first n (block ++ between) ∧
    IsDocBlock block ∧ between.foldlM commentBehind? false = some false ∧
    agrees (docOfBlock block) ∧
    ((∀ k, first ≤ k → k < n → ¬ EndsClass o.classes k) →
      block ++ between = trimmedLines file first n ∧
        ∀ k, first ≤ k → k < n → ∀ c ∈ o.classes, k ∉ c.lines)

/-- The comment is that of a block of the class whose header is line `above`, in front of line
`n` and with nothing but comments and decorators in between. -/
def PrecedesWithin (file : List Line) (above n : Nat) (agrees : Doc → Prop) : Prop :=
  ∃ first block between, above < first ∧ first ≤ n ∧
    block ++ between = trimmedLines file first n ∧
    IsDocBlock block ∧ between.foldlM commentBehind? false = some false ∧
    agrees (docOfBlock block)

/-- What the records of the outline say was taken from doc blocks in front of them. -/
structure Outline.Documented (file : List Line) (o : Outline) : Prop where
  functions : ∀ r ∈ o.functions, r.doc ≠ {} → o.Precedes file r.line (· = r.doc)
  classes : ∀ r ∈ o.classes, r.doc ≠ {} → o.Precedes file r.line (· = r.doc)
  interfaces : ∀ r ∈ o.interfaces, r.doc ≠ {} → o.Precedes file r.line (· = r.doc)
  types : ∀ r ∈ o.types, r.description ≠ none →
    o.Precedes file r.line (·.description = r.description)
  constants : ∀ r ∈ o.constants, r.description ≠ none →
    o.Precedes file r.line (·.description = r.description)
  methods : ∀ c ∈ o.classes, ∀ f ∈ c.methods, f.doc ≠ {} →
    f.line ∈ c.lines ∧ PrecedesWithin file c.line f.line (· = f.doc)
  properties : ∀ c ∈ o.classes, ∀ p ∈ c.properties, p.description ≠ none →
    ∃ n ∈ c.lines, (∃ p₀ name, firstHit Brace.inside (file.drop (n - 1)) =
        some (name, .property p₀) ∧ p = { p₀ with description := p.description }) ∧
      PrecedesWithin file c.line n (·.description = p.description)

section

variable {file : List Line} {items : List Item} {o : Outline}

/-- Where a block is taken in its class, no line is left unread. -/
theorem precedesWithin_of_attached {above n : Nat} {agrees : Doc → Prop}
    (h : Attached file nowhere above n agrees) : PrecedesWithin file above n agrees := by
  obtain ⟨first, block, between, habove, hreads, hblock, hbetween, hdoc⟩ := h
  exact ⟨first, block, between, habove, hreads.first_le,
    hreads.eq_trimmedLines fun _ _ _ => id, hblock, hbetween, hdoc⟩

theorem PrecedesWithin.lt {above n : Nat} {agrees : Doc → Prop}
    (h : PrecedesWithin file above n agrees) : above < n := by
  obtain ⟨first, block, between, habove, hle, -⟩ := h
  exact Nat.lt_of_lt_of_le habove hle

/-- A record that shares a line with a class is that class or an export of it. -/
theorem line_le_of_mem_lines (hordered : items.Pairwise Item.Before) {n : Nat}
    (hinFile : ∀ a ∈ items, a.InFile n) {a : Item} {c : ClassRecord} (ha : a ∈ items)
    (hc : Item.classItem c ∈ items) (hmem : a.line ∈ c.lines) : a.line ≤ c.line := by
  by_cases heq : a = .classItem c
  · rw [heq]
    exact Nat.le_refl _
  · have hapart := (hordered.imp (S := Item.Apart) .inl).forall ha hc heq
    rcases hapart.not_mem rfl (hinFile a ha).last.1 with hout | ⟨-, -, hline⟩
    · exact absurd hmem hout
    · exact Nat.le_of_eq hline

theorem Outline.Holds.precedes (hholds : o.Holds items) (hordered : items.Pairwise Item.Before)
    {n : Nat} (hinFile : ∀ a ∈ items, a.InFile n) {a : Item} (ha : a ∈ items)
    (hdocumented : Brace.ItemDocumented file (items.filterMap Item.class?) a)
    (hdoc : a.IsDocumented) : o.Precedes file a.line a.Takes := by
  obtain ⟨first, block, between, habove, hreads, hblock, hbetween, hagrees⟩ :=
    hdocumented.taken hdoc
  rw [← hholds.classes] at hreads
  refine ⟨first, block, between, habove, hreads, hblock, hbetween, hagrees, fun hends => ?_⟩
  refine ⟨hreads.eq_trimmedLines hends, fun k hk hlt c hc hmem => ?_⟩
  have hitem := hholds.mem_classes.mp hc
  rw [ClassRecord.lines, Finset.mem_Icc] at hmem
  -- a class with a line in front of the record ends in front of it
  by_cases hin : a.line ∈ c.lines
  · have hle := line_le_of_mem_lines hordered hinFile ha hitem hin
    omega
  · rw [ClassRecord.lines, Finset.mem_Icc] at hin
    have hfirst := (hinFile _ hitem).first
    have hlast := (hinFile _ hitem).last.1
    simp only [Item.last, Item.line] at hfirst hlast
    exact hends (c.line + c.lineCount - 1) (by omega) (by omega) ⟨c, hc, by omega⟩

end

/-- In the outline of a file of the brace family, what a record says was taken from a doc block
in front of it with nothing but comments and decorators in between. Only the last line of a
class may stand there too, and then only outside classes. -/
theorem Outline.documented_build (path : String) (content : List Char) :
    (Outline.build path content .brace).Documented (Text.lines content) := by
  have hholds := Outline.holds_build path content .brace
  have hrecorded := Brace.recorded_allItems path (Text.lines content)
  have hall := Brace.documented_allItems path (Text.lines content)
  generalize Outline.build path content .brace = o at hholds ⊢
  generalize Text.lines content = file at hholds hrecorded hall ⊢
  -- the class that an unread line ends is among the recorded ones, as the list is in the order of
  -- lines
  have htop := fun a ha => hholds.precedes hrecorded.ordered hrecorded.inFile ha (hall a ha)
  have hlines : ∀ (c : ClassRecord) (n : Nat), c.line < n → n ≤ c.line + c.lineCount - 1 →
      n ∈ c.lines := by
    intro c n hlt hle
    exact Finset.mem_Icc.mpr ⟨Nat.le_of_lt hlt, hle⟩
  have hmembers := fun c hc => (hall _ (hholds.mem_classes.mp hc)).members c rfl
  refine ⟨fun r hr => htop _ (hholds.mem_functions.mp hr),
    fun r hr => htop _ (hholds.mem_classes.mp hr),
    fun r hr => htop _ (hholds.mem_interfaces.mp hr),
    fun r hr => htop _ (hholds.mem_types.mp hr),
    fun r hr => htop _ (hholds.mem_constants.mp hr), fun c hc f hf hdoc => ?_,
    fun c hc p hp hdoc => ?_⟩
  · obtain ⟨hle, hattached⟩ := (hmembers c hc).methods f hf hdoc
    have hwithin := precedesWithin_of_attached hattached
    exact ⟨hlines c f.line hwithin.lt hle, hwithin⟩
  · obtain ⟨n, hle, hdecl, hattached⟩ := (hmembers c hc).properties p hp hdoc
    have hwithin := precedesWithin_of_attached hattached
    exact ⟨n, hlines c n hwithin.lt hle, hdecl, hwithin⟩

/-- The line in front of a record that says something ends a comment or stands behind one. -/
theorem PrecedesWithin.line_before {file : List Line} {above n : Nat} {agrees : Doc → Prop}
    (h : PrecedesWithin file above (n + 1) agrees) :
    DocBuffer.closes (Text.trim (lineAt file n)) = true ∨
      ∃ inComment, commentBehind? inComment (Text.trim (lineAt file n)) = some false := by
  obtain ⟨first, block, between, -, hle, hlines, hblock, hbetween, -⟩ := h
  obtain ⟨front, l, rfl, hcloses, -⟩ := hblock.closes
  have hfirst : first ≤ n := by
    by_contra hlt
    have hempty : trimmedLines file first (n + 1) = [] := by
      rw [trimmedLines, Nat.sub_eq_zero_of_le (Nat.lt_of_not_le hlt)]
      rfl
    simp [hempty] at hlines
  rw [trimmedLines_succ file hfirst] at hlines
  -- the line is the last one of the block, or the last one behind it
  rcases List.eq_nil_or_concat between with rfl | ⟨front', l', rfl⟩
  · rw [List.append_nil] at hlines
    have hlast := (List.append_inj' hlines rfl).2
    rw [List.singleton_inj] at hlast
    exact .inl (hlast ▸ hcloses)
  · rw [List.concat_eq_append] at hbetween hlines
    rw [← List.append_assoc] at hlines
    have hlast := (List.append_inj' hlines rfl).2
    rw [List.singleton_inj] at hlast
    rw [List.foldlM_append, Option.bind_eq_bind, Option.bind_eq_some_iff] at hbetween
    obtain ⟨inComment, -, hline⟩ := hbetween
    refine .inr ⟨inComment, ?_⟩
    rw [← hlast]
    simpa using hline

/-- A class whose last comment documents nothing, and a function behind it. -/
def danglingComment : List Char :=
  "class A \x7b\n  x = 1;\n  /** dangling */\n\x7d\nfunction f() \x7b\x7d\n".toList

/-- The function takes the comment of the class, though the end of the class stands in
between. -/
theorem documented_danglingComment :
    ∃ f ∈ (Outline.build "a.ts" danglingComment .brace).functions,
      f.doc = ⟨some "dangling", some "dangling"⟩ ∧
        ¬ PrecedesWithin (Text.lines danglingComment) 0 f.line (· = f.doc) := by
  have hrecorded : ∃ f ∈ (Outline.build "a.ts" danglingComment .brace).functions,
      f.line = 4 + 1 ∧ f.doc = ⟨some "dangling", some "dangling"⟩ := by
    decide +kernel
  obtain ⟨f, hf, hline, hdoc⟩ := hrecorded
  refine ⟨f, hf, hdoc, fun h => ?_⟩
  rw [hline] at h
  rcases h.line_before with hcloses | ⟨inComment, hcomment⟩
  · revert hcloses
    decide
  · revert inComment
    decide

end CodeAtlas
