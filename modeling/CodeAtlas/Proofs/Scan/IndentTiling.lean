/-
How the records of a file of the indentation family lie side by side.

Functions, methods and classes reach over lines, and in this family too the scan finishes
the lines of a function before it reads on. A class is recorded late, when a line ends it.
There are two such lines. One that stands no deeper than the class line and begins
something else is behind the class (`ClassRecord.LeftAt`). The header of a class that is
nested in the class ends it as well, but the class has been moved up to that line before the
header is recognised, so the two classes share it (`ClassRecord.EndedAt`); see
`bodies_nestedAtOnce`.

That is the only line that two records share. `Outline.stacked_build` says so, and which of
the two lines has ended a class; what holds in front of a line is `RecordedBefore`.
-/
import CodeAtlas.Proofs.Scan.Membership
import CodeAtlas.Proofs.Scan.Tiling

set_option autoImplicit false

namespace CodeAtlas

/-! ## The line that ends a class -/

/-- Line `n` is the header of a class nested in the class, which ends with that line; the
methods of the class end in front of it. -/
structure ClassRecord.EndedAt (file : List Line) (n : Nat) (c : ClassRecord) : Prop where
  last : c.line + c.lineCount = n + 1
  methods : MethodsTile c.line (n - 1) c.methods
  nested : Indent.closesClass (Text.indentation (lineAt file c.line)) (lineAt file n) = false

/-- The class lies in front of line `n`, and a line behind its header and up to line `n`
begins something that is not deeper than the class. -/
structure ClassRecord.LeftAt (file : List Line) (n : Nat) (c : ClassRecord) : Prop where
  last : c.line + c.lineCount ≤ n
  left : ∃ k, c.line < k ∧ k ≤ n ∧
    Indent.closesClass (Text.indentation (lineAt file c.line)) (lineAt file k) = true

/-- One of the two has ended the class where line `n` is read. -/
def ClassRecord.OverAt (file : List Line) (n : Nat) (c : ClassRecord) : Prop :=
  c.EndedAt file n ∨ c.LeftAt file n

variable {file : List Line} {n n' : Nat} {c d : ClassRecord}

theorem ClassRecord.LeftAt.mono (h : c.LeftAt file n) (hle : n ≤ n') : c.LeftAt file n' := by
  obtain ⟨k, hlt, hk, hcloses⟩ := h.left
  exact ⟨Nat.le_trans h.last hle, k, hlt, Nat.le_trans hk hle, hcloses⟩

/-! ## Items -/

/-- The second item stands behind the first one, or the first is a class that the second
one ends. -/
def Item.Follows (file : List Line) (a b : Item) : Prop :=
  a.Before b ∨ ∃ c, a = .classItem c ∧ c.EndedAt file b.line ∧ ∃ d, b = .classItem d

/-- The items are in order, and each class was ended by the next one or before it. -/
structure InOrder (file : List Line) (items : List Item) : Prop where
  ordered : items.Pairwise (Item.Follows file)
  inFile : ∀ a ∈ items, a.InFile file.length
  classes : (items.filterMap Item.class?).IsChain fun c d => c.OverAt file d.line

/-- What has been recorded where line `n` is to be read. -/
structure RecordedBefore (file : List Line) (n : Nat) (items : List Item) : Prop
    extends InOrder file items where
  done : ∀ a ∈ items, a.last < n ∨ ∃ c, a = .classItem c ∧ c.EndedAt file n
  newest : ∀ c ∈ (items.filterMap Item.class?).getLast?, c.OverAt file n

section

variable {items more : List Item}

theorem RecordedBefore.nil : RecordedBefore file n [] where
  ordered := .nil
  inFile a ha := by simp at ha
  classes := .nil
  done a ha := by simp at ha
  newest c hc := by simp at hc

theorem filterMap_class?_eq_nil (h : ∀ a ∈ more, ∀ c, a ≠ .classItem c) :
    more.filterMap Item.class? = [] := by
  refine List.filterMap_eq_nil_iff.mpr fun a ha => Option.eq_none_iff_forall_ne_some.mpr ?_
  exact fun c hc => h a ha c ((Item.isKind_classItem a c).mp hc)

/-- The items of the next lines follow, unless a class is ended there. -/
theorem RecordedBefore.append {i further : Nat} (h : RecordedBefore file (i + 1) items)
    (hdone : ∀ a ∈ items, a.last ≤ i) (hordered : more.Pairwise Item.Before)
    (hstands : ∀ b ∈ more, b.StandsAt i further) (hle : i + further + 1 ≤ file.length) :
    RecordedBefore file (i + further + 2) (items ++ more) := by
  have hclasses : (items ++ more).filterMap Item.class? = items.filterMap Item.class? := by
    rw [List.filterMap_append, filterMap_class?_eq_nil fun b hb => (hstands b hb).noClass,
      List.append_nil]
  refine ⟨⟨List.pairwise_append.mpr ⟨h.ordered, hordered.imp .inl, fun a ha b hb => ?_⟩, ?_, ?_⟩,
    ?_, ?_⟩
  · have hlast := hdone a ha
    have hline := (hstands b hb).line
    exact .inl (.inl (by omega))
  · intro a ha
    rcases List.mem_append.mp ha with hold | hnew
    · exact h.inFile a hold
    · have hline := (hstands a hnew).line
      have hlast := (hstands a hnew).last
      exact ⟨by omega, ⟨hlast.1, by omega⟩, fun c hc => absurd hc ((hstands a hnew).noClass c)⟩
  · rw [hclasses]
    exact h.classes
  · intro a ha
    rcases List.mem_append.mp ha with hold | hnew
    · have hlast := hdone a hold
      exact .inl (by omega)
    · have hlast := (hstands a hnew).last.2
      exact .inl (by omega)
  · rw [hclasses]
    intro c hc
    -- the last class lies in front of the line, so the line has not ended it
    have hmem : Item.classItem c ∈ items :=
      Item.isKind_classItem.mem_filterMap.mp (List.mem_of_getLast? hc)
    have hlast : c.line + c.lineCount - 1 ≤ i := hdone _ hmem
    rcases h.newest c hc with hended | hleft
    · have hbehind := hended.last
      omega
    · exact .inr (hleft.mono (by omega))

/-- A class that was opened on line `n` follows when it is closed. -/
theorem RecordedBefore.close (h : RecordedBefore file n items) (hline : c.line = n)
    (hfile : (Item.classItem c).InFile file.length) : InOrder file (items ++ [.classItem c]) where
  ordered := by
    refine List.pairwise_append.mpr ⟨h.ordered, List.pairwise_singleton _ _, fun a ha b hb => ?_⟩
    rw [List.mem_singleton.mp hb]
    rcases h.done a ha with hdone | ⟨c', rfl, hended⟩
    · exact .inl (.inl (by rwa [← hline] at hdone))
    · exact .inr ⟨c', rfl, by rwa [← hline] at hended, c, rfl⟩
  inFile a ha := by
    rcases List.mem_append.mp ha with hold | hnew
    · exact h.inFile a hold
    · rw [List.mem_singleton.mp hnew]
      exact hfile
  classes := by
    rw [List.filterMap_append]
    refine List.isChain_append.mpr ⟨h.classes, List.isChain_singleton _, fun c' hc' d hd => ?_⟩
    obtain rfl : c = d := Option.some.inj hd
    rw [hline]
    exact h.newest c' hc'

theorem RecordedBefore.last_le (h : RecordedBefore file n items) {a : Item} (ha : a ∈ items) :
    a.last ≤ n := by
  rcases h.done a ha with hdone | ⟨c, rfl, hended⟩
  · exact Nat.le_of_lt hdone
  · have hlast := hended.last
    simp only [Item.last]
    omega

/-- The next line to be read is the one that has ended the class, or one behind it. -/
theorem RecordedBefore.closeAt {m : Nat} (h : RecordedBefore file n items) (hline : c.line = n)
    (hfile : (Item.classItem c).InFile file.length) (hlt : n < m) (hover : c.OverAt file m) :
    RecordedBefore file m (items ++ [.classItem c]) := by
  have hlast : (Item.classItem c).last < m ∨ c.EndedAt file m := by
    have hcount := hfile.last.1
    rcases hover with hended | hleft
    · exact .inr hended
    · have hbehind := hleft.last
      have hfirst := hfile.first
      simp only [Item.last, Item.line] at hcount hfirst ⊢
      exact .inl (by omega)
  refine ⟨h.close hline hfile, fun a ha => ?_, fun d hd => ?_⟩
  · rcases List.mem_append.mp ha with hold | hnew
    · exact .inl (Nat.lt_of_le_of_lt (h.last_le hold) hlt)
    · rw [List.mem_singleton.mp hnew]
      exact hlast.imp_right fun hended => ⟨c, rfl, hended⟩
  · rw [List.filterMap_append, List.getLast?_append] at hd
    obtain rfl : c = d := Option.some.inj hd
    exact hover

end

/-! ## Calls -/

namespace Indent

section

variable {s : Scan} {i : Nat} {ls : List Line} {step : Step}

/-- A statement may record several items, all on its first line. -/
theorem standsAt_of_mem_exports {text : List Char} {further : Nat} {a : Item}
    (ha : a ∈ (exportsOf text).map fun r => Item.exportItem (r.shift i)) :
    (∃ r, a = .exportItem r) ∧ a.StandsAt i further := by
  obtain ⟨r, hr, rfl⟩ := List.mem_map.mp ha
  have hlocal : r.line = 1 := line_of_mem_exportsOf hr
  refine ⟨⟨_, rfl⟩, .of_line ?_ rfl fun c hc => by cases hc⟩
  simp only [Item.line, ExportRecord.shift]
  omega

theorem standsAt_of_mem_imports {name : String} {rs : List ImportRecord} {further : Nat} {a : Item}
    (hit : firstHit outside ls = some (name, .imports rs))
    (ha : a ∈ (rs.map (·.shift i)).map Item.importItem) :
    (∃ r, a = .importItem r) ∧ a.StandsAt i further := by
  obtain ⟨r', hr', rfl⟩ := List.mem_map.mp ha
  obtain ⟨r, hr, rfl⟩ := List.mem_map.mp hr'
  have hlocal : r.line = 1 := isLocal_of_outside hit r hr
  refine ⟨⟨_, rfl⟩, .of_line ?_ rfl fun c hc => by cases hc⟩
  simp only [Item.line, ImportRecord.shift]
  omega

/-- A call outside classes records what stands on its line, or opens a class. -/
theorem OutsideCase.records_or_opens (h : OutsideCase s i ls step) (hne : ls ≠ [])
    (hnone : s.scope = none) :
    (∃ s' items further, step = .done s' items further ∧ s'.scope = none ∧ further < ls.length ∧
      items.Pairwise Item.Before ∧ ∀ a ∈ items, a.StandsAt i further) ∨
    ∃ s' c further, step = .done s' [] further ∧ s'.scope = some c ∧ c.start = i ∧
      c.stop = i + further ∧ c.record.line = i + 1 ∧ c.record.methods = [] := by
  obtain ⟨s', items, further, hstep, hlt⟩ := h.exists_done hne
  cases h with
  | silent | docstring | decorator | nothing =>
    cases hstep
    exact .inl ⟨_, _, _, rfl, hnone, hlt, .nil, fun a ha => by simp at ha⟩
  | exports =>
    cases hstep
    have hstands : ∀ a ∈ (exportsOf (joinBrackets ls).text).map fun r =>
          Item.exportItem (r.shift i),
        (∃ r, a = .exportItem r) ∧ a.StandsAt i (joinBrackets ls).further :=
      fun a => standsAt_of_mem_exports
    refine .inl ⟨_, _, _, rfl, hnone, hlt, ?_, fun a ha => (hstands a ha).2⟩
    refine pairwise_before_of_sharesLine (fun a ha => (hstands a ha).2.line) fun a ha b _ => ?_
    obtain ⟨r, rfl⟩ := (hstands a ha).1
    trivial
  | @imports _ rs hit =>
    cases hstep
    have hstands : ∀ a ∈ (rs.map (·.shift i)).map Item.importItem,
        (∃ r, a = .importItem r) ∧ a.StandsAt i (joinBrackets ls).further :=
      fun a => standsAt_of_mem_imports hit
    refine .inl ⟨_, _, _, rfl, hnone, hlt, ?_, fun a ha => (hstands a ha).2⟩
    refine pairwise_before_of_sharesLine (fun a ha => (hstands a ha).2.line) fun a ha b hb => ?_
    obtain ⟨r, rfl⟩ := (hstands a ha).1
    obtain ⟨r', rfl⟩ := (hstands b hb).1
    trivial
  | classHead =>
    cases hstep
    exact .inr ⟨_, _, _, rfl, rfl, rfl, rfl, rfl, rfl⟩
  | function =>
    cases hstep
    refine .inl ⟨_, _, _, rfl, hnone, hlt, List.pairwise_singleton _ _, fun a ha => ?_⟩
    rw [List.mem_singleton.mp ha]
    refine ⟨rfl, ?_, fun c hc => by cases hc⟩
    simp only [Item.last, Item.line, functionRecord]
    omega
  | @constant _ r hit =>
    cases hstep
    refine .inl ⟨_, _, _, rfl, hnone, hlt, List.pairwise_singleton _ _, fun a ha => ?_⟩
    rw [List.mem_singleton.mp ha]
    have hlocal : r.line = 1 := isLocal_of_outside hit
    refine .of_line ?_ rfl fun c hc => by cases hc
    simp only [Item.line, ConstantRecord.shift]
    omega

/-- A call that keeps the class `c` open never moves its last line up, and adds at most a
method, which stands behind those that are there. -/
structure Grows (i further : Nat) (c c' : ClassScope) : Prop where
  opening : c'.opening = c.opening
  stop : c.stop ≤ c'.stop ∧ c'.stop ≤ i + further
  methods : MethodsTile (c.start + 1) (c.stop + 1) c.record.methods →
    MethodsTile (c.start + 1) (c'.stop + 1) c'.record.methods

/-- A class to which no method is added grows. -/
theorem grows_of_methods {further : Nat} {c c' : ClassScope} (hopening : c'.opening = c.opening)
    (hstop : c.stop ≤ c'.stop ∧ c'.stop ≤ i + further)
    (hmethods : c'.record.methods = c.record.methods) : Grows i further c c' where
  opening := hopening
  stop := hstop
  methods htile := by
    rw [hmethods]
    exact htile.mono (Nat.succ_le_succ hstop.1)

theorem grows_addMethod {c : ClassScope} (hbegun : c.start < i) (hstop : c.stop < i)
    (head : FunctionHead) :
    Grows i (bodyExtent head ls) c (addMethod s { c with stop := i } head i ls).1 where
  opening := opening_addMethod s { c with stop := i } head i ls
  stop := by
    rw [stop_addMethod]
    omega
  methods htile := by
    rw [methods_addMethod, stop_addMethod]
    refine ⟨fun f hf => ?_,
      List.pairwise_append.mpr ⟨htile.ordered, List.pairwise_singleton _ _, ?_⟩⟩
    · rcases List.mem_append.mp hf with hold | hnew
      · exact (htile.mono (by omega)).between f hold
      · rw [List.mem_singleton.mp hnew]
        simp only [asMethod, functionRecord]
        omega
    · intro f hf g hg
      obtain ⟨-, -, hbelow⟩ := htile.between f hf
      rw [List.mem_singleton.mp hg]
      simp only [asMethod, functionRecord]
      omega

/-- A call inside a class lets it grow, or ends it in one of the two ways. -/
theorem InsideCase.grows_or_ends {c : ClassScope} (h : InsideCase s c i ls step)
    (hbegun : c.start < i) (hstop : c.stop < i) :
    (∃ s' c' further, step = .done s' [] further ∧ s'.scope = some c' ∧ Grows i further c c') ∨
    closesClass c.indent (ls.headD []) = true ∧ step = .again s.leaveClass [.closed c] ∨
    closesClass c.indent (ls.headD []) = false ∧ ReadsClass ls ∧
      step = .again s.leaveClass [.closed { c with stop := i }] := by
  cases h with
  | silent =>
    exact .inl ⟨_, _, _, rfl, rfl, grows_of_methods rfl ⟨Nat.le_refl _, Nat.le_of_lt hstop⟩ rfl⟩
  | docstring =>
    refine .inl ⟨_, _, _, rfl, rfl, grows_of_methods rfl ⟨?_, Nat.le_refl _⟩ rfl⟩
    simp only
    omega
  | decorator | nothing =>
    exact .inl ⟨_, _, _, rfl, rfl, grows_of_methods rfl ⟨Nat.le_of_lt hstop, Nat.le_refl _⟩ rfl⟩
  | function => exact .inl ⟨_, _, _, rfl, rfl, grows_addMethod hbegun hstop _⟩
  | @property _ p =>
    refine .inl ⟨_, _, _, rfl, rfl, grows_of_methods (ClassScope.opening_addProperty _ _) ?_
      (ClassScope.addProperty_methods _ _)⟩
    rw [ClassScope.addProperty_stop]
    exact ⟨Nat.le_of_lt hstop, Nat.le_refl _⟩
  | closes hcloses => exact .inr (.inl ⟨hcloses, rfl⟩)
  | classHead hit hspeaks hcode hkeeps =>
    exact .inr (.inr ⟨hkeeps, ⟨hspeaks, hcode, _, classDeclaration?_of_inside hit⟩, rfl⟩)

end

/-! ## The invariant -/

/-- At a moment what has been recorded is in order. Outside classes it lies in front of the
line to be read, or that line is the header that has ended a class; inside a class it lies in
front of the class, whose methods lie between its header and its last line so far. -/
structure Stacked (file : List Line) (m : Moment) : Prop where
  outside : m.scan.scope = none → RecordedBefore file (m.index + 1) m.items ∧
    ((∀ a ∈ m.items, a.last ≤ m.index) ∨ ReadsClass (file.drop m.index))
  inside : ∀ c, m.scan.scope = some c → RecordedBefore file (c.start + 1) m.items ∧
    c.stop < m.index ∧ c.record.line = c.start + 1 ∧
    MethodsTile (c.start + 1) (c.stop + 1) c.record.methods

variable {path : String} {file : List Line} {m : Moment} {c : ClassScope}

/-- A call behind which no class is open records what stands on its line. -/
theorem stacked_of_records {s' : Scan} {items : List Item} {further : Nat}
    (h : RecordedBefore file (m.index + 1) m.items) (hdone : ∀ a ∈ m.items, a.last ≤ m.index)
    (hnone' : s'.scope = none) (hends : m.index + further < file.length)
    (hordered : items.Pairwise Item.Before) (hstands : ∀ a ∈ items, a.StandsAt m.index further) :
    Stacked file (m.follow (.done s' items further)) := by
  refine ⟨fun _ => ⟨h.append hdone hordered hstands hends, .inl ?_⟩, fun c hc => ?_⟩
  · refine List.forall_mem_append.mpr ⟨fun a ha => ?_, fun a ha => (hstands a ha).last.2⟩
    have hlast := hdone a ha
    simp only [Moment.follow]
    omega
  · simp [Moment.follow, hnone'] at hc

/-- A class that is opened has nothing but its header and its docstring. -/
theorem stacked_of_opens {s' : Scan} {further : Nat}
    (h : RecordedBefore file (m.index + 1) m.items) (hsome : s'.scope = some c)
    (hstart : c.start = m.index) (hstop : c.stop = m.index + further)
    (hline : c.record.line = m.index + 1) (hmethods : c.record.methods = []) :
    Stacked file (m.follow (.done s' [] further)) := by
  refine ⟨fun hnone => by simp [Moment.follow, hsome] at hnone, fun d hd => ?_⟩
  simp only [Moment.follow, hsome, Option.some.injEq] at hd
  subst hd
  refine ⟨?_, ?_, by rw [hline, hstart], hmethods ▸ .nil _ _⟩
  · simp only [Moment.follow, List.append_nil]
    rw [hstart]
    exact h
  · simp only [Moment.follow]
    omega

theorem stacked_outside (h : Stacked file m) (hfamily : m.scan.family = .indent)
    (hlt : m.index < file.length) (hnone : m.scan.scope = none) : Stacked file (m.next file) := by
  obtain ⟨hbefore, hdone | hreads⟩ := h.outside hnone
  · obtain ⟨step, hcase, hnext⟩ := next_outside file hfamily hnone
    rw [hnext]
    rcases hcase.records_or_opens (Moment.drop_ne_nil hlt) hnone with
      ⟨s', items, further, rfl, hnone', hends, hordered, hstands⟩ |
        ⟨s', c, further, rfl, hsome, hstart, hstop, hline, hmethods⟩
    · rw [List.length_drop] at hends
      exact stacked_of_records hbefore hdone hnone' (by omega) hordered hstands
    · exact stacked_of_opens hbefore hsome hstart hstop hline hmethods
  · -- the header that has ended the last class opens the next one
    obtain ⟨head, doc, further, hnext⟩ := exists_next_of_readsClass hfamily hnone hreads
    rw [hnext]
    exact stacked_of_opens hbefore rfl rfl rfl rfl rfl

/-- The class that is open, as it is recorded when it is closed behind `stop`. -/
theorem inFile_closedAt {stop : Nat} (hfile : c.InFile file m.index)
    (hline : c.record.line = c.start + 1)
    (hmethods : MethodsTile (c.start + 1) (c.stop + 1) c.record.methods) (hle : c.stop ≤ stop)
    (hends : stop < file.length) :
    (Item.closed { c with stop := stop }).InFile file.length := by
  have hkept := hfile.kept
  have hmoved : ({ c with stop := stop } : ClassScope).InFile file m.index :=
    ⟨hfile.begun, Nat.le_trans hkept hle, hends⟩
  exact Brace.inFile_closed hmoved hline (hmethods.mono (Nat.succ_le_succ hle))

/-- A class that is ended is recorded, and its line is read again. -/
theorem stacked_of_ends (stop : Nat) (h : RecordedBefore file (c.start + 1) m.items)
    (hline : c.record.line = c.start + 1) (hbegun : c.start < m.index)
    (hfile : (Item.closed { c with stop := stop }).InFile file.length)
    (hover : ({ c with stop := stop } : ClassScope).finish.OverAt file (m.index + 1))
    (hread : (Item.closed { c with stop := stop }).last ≤ m.index ∨
      ReadsClass (file.drop m.index)) :
    Stacked file (m.follow (.again m.scan.leaveClass [.closed { c with stop := stop }])) := by
  refine ⟨fun _ => ⟨h.closeAt hline hfile (Nat.succ_lt_succ hbegun) hover, ?_⟩,
    fun d hd => by simp [Moment.follow] at hd⟩
  refine hread.imp_left fun hlast => List.forall_mem_append.mpr ⟨fun a ha => ?_, ?_⟩
  · exact Nat.le_trans (h.last_le ha) hbegun
  · exact List.forall_mem_singleton.mpr hlast

theorem stacked_inside (h : Stacked file m) (hfamily : m.scan.family = .indent)
    (hlt : m.index < file.length) (hsome : m.scan.scope = some c) (hfile : c.InFile file m.index)
    (hindent : c.indent = Text.indentation (lineAt file c.record.line)) :
    Stacked file (m.next file) := by
  obtain ⟨hbefore, hstop, hline, hmethods⟩ := h.inside c hsome
  have hbegun := hfile.begun
  have hkept := hfile.kept
  obtain ⟨step, hcase, hnext⟩ := next_inside file hfamily hsome
  rw [hnext]
  rcases hcase.grows_or_ends hbegun hstop with
    ⟨s', c', further, rfl, hsome', hgrows⟩ | ⟨hcloses, rfl⟩ | ⟨hkeeps, hreads, rfl⟩
  -- the class goes on over the line
  · have hstart' : c'.start = c.start := congrArg ClassOpening.start hgrows.opening
    have hline' : c'.record.line = c.record.line := congrArg (·.record.line) hgrows.opening
    refine ⟨fun hnone => by simp [Moment.follow, hsome'] at hnone, fun d hd => ?_⟩
    simp only [Moment.follow, hsome', Option.some.injEq] at hd
    subst hd
    have hstop' := hgrows.stop.2
    rw [hstart', hline']
    refine ⟨by simpa only [Moment.follow, List.append_nil] using hbefore, ?_, hline,
      hgrows.methods hmethods⟩
    simp only [Moment.follow]
    omega
  · -- the line is behind the class, whose last line stays where it was
    rw [hindent, ← lineAt_succ] at hcloses
    have hlast := Brace.last_closed hkept hline
    refine stacked_of_ends c.stop hbefore hline hbegun
      (inFile_closedAt hfile hline hmethods (Nat.le_refl _) hfile.ends) (.inr ⟨?_, ?_⟩)
      (.inl (hlast.trans_le hstop))
    · simp only [ClassScope.finish_line, ClassScope.finish_lineCount, ClassScope.extent, hline]
      omega
    · exact ⟨m.index + 1, by simp only [ClassScope.finish_line, hline]; omega, Nat.le_refl _,
        hcloses⟩
  · -- the class has been moved up to the line that ends it
    rw [hindent, ← lineAt_succ] at hkeeps
    refine stacked_of_ends m.index hbefore hline hbegun
      (inFile_closedAt hfile hline hmethods (Nat.le_of_lt hstop) hlt) (.inl ⟨?_, ?_, hkeeps⟩)
      (.inr hreads)
    · simp only [ClassScope.finish_line, ClassScope.finish_lineCount, ClassScope.extent, hline]
      omega
    · rw [ClassScope.finish_line, hline]
      exact hmethods.mono hstop

/-- At every moment of a scan. -/
theorem stacked_of_reached (h : Moment.Reached file (.start path .indent) m) : Stacked file m := by
  induction h with
  | first =>
    refine ⟨fun _ => ⟨.nil, .inl fun a ha => ?_⟩, fun c hc => ?_⟩
    · simp [Moment.start] at ha
    · simp [Moment.start] at hc
  | @next m hreached hlt ih =>
    have hfamily := hreached.sameFile.2
    cases hscope : m.scan.scope with
    | none => exact stacked_outside ih hfamily hlt hscope
    | some c =>
      exact stacked_inside ih hfamily hlt hscope (hreached.classInFile c hscope)
        (indent_of_hasOrigin (hreached.allOrigin.scope c hscope))

/-- All items of a scan are in order; the end of the file closes a class like a line behind
it. -/
theorem inOrder_allItems (path : String) (file : List Line) :
    InOrder file (Moment.last path .indent file).allItems := by
  have hreached := Moment.reached_last path .indent file
  have hstacked := stacked_of_reached hreached
  rw [Moment.allItems]
  cases hscope : (Moment.last path .indent file).scan.scope with
  | none =>
    rw [Option.map_none, Option.toList_none, List.append_nil]
    exact (hstacked.outside hscope).1.toInOrder
  | some c =>
    obtain ⟨hbefore, -, hline, hmethods⟩ := hstacked.inside c hscope
    have hfile := hreached.classInFile c hscope
    exact hbefore.close hline
      (inFile_closedAt hfile hline hmethods (Nat.le_refl _) hfile.ends)

end Indent

/-! ## Outlines -/

/-- How the functions, methods and classes of an outline of the indentation family lie. -/
structure Outline.Stacked (file : List Line) (o : Outline) : Prop where
  inFile : ∀ s ∈ o.bodies, s.Nonempty ∧ s ⊆ Finset.Icc 1 o.lineCount
  functions : o.functions.Pairwise fun f g => Disjoint f.lines g.lines
  apart : ∀ f ∈ o.functions, ∀ c ∈ o.classes, Disjoint f.lines c.lines
  /-- two classes share at most the header of the later one -/
  classes : o.classes.Pairwise fun c d => Disjoint (c.lines.erase d.line) d.lines
  /-- a class shares a line with the next one exactly if that one is nested and has ended it -/
  ended : o.classes.IsChain fun c d => d.line ∈ c.lines ∧ c.EndedAt file d.line ∨
    d.line ∉ c.lines ∧ c.LeftAt file d.line
  methods : ∀ c ∈ o.classes, ∀ f ∈ c.methods,
    c.line < f.line ∧ f.lines.Nonempty ∧ f.lines ⊆ c.lines
  callables : (o.functions ++ o.classes.flatMap (·.methods)).Pairwise fun f g =>
    Disjoint f.lines g.lines

section

variable {a b : Item} {s t : Finset Nat} {items : List Item} {o : Outline}

/-- One of the items follows the other. -/
def Item.Meets (file : List Line) (a b : Item) : Prop := a.Follows file b ∨ b.Follows file a

instance (file : List Line) : Std.Symm (Item.Meets file) := ⟨fun _ _ h => h.symm⟩

/-- Only two classes may share a line. -/
theorem Item.Follows.disjoint (h : a.Follows file b) (ha : a.body? = some s)
    (hb : b.body? = some t) (hne : (∀ c, a ≠ .classItem c) ∨ ∀ c, b ≠ .classItem c) :
    Disjoint s t := by
  rcases h with hbefore | ⟨c, rfl, -, d, rfl⟩
  · exact hbefore.disjoint ha hb
  · rcases hne with hno | hno
    · exact absurd rfl (hno c)
    · exact absurd rfl (hno d)

theorem disjoint_erase_of_follows (h : (Item.classItem c).Follows file (.classItem d)) :
    Disjoint (c.lines.erase d.line) d.lines := by
  rcases h with hbefore | ⟨c', heq, hended, -⟩
  · exact (hbefore.disjoint rfl rfl).mono_left (Finset.erase_subset _ _)
  · obtain rfl : c = c' := Item.classItem.inj heq
    have hlast : c.line + c.lineCount = d.line + 1 := hended.last
    rw [Finset.disjoint_left]
    intro x hx hx'
    obtain ⟨hne, hx⟩ := Finset.mem_erase.mp hx
    rw [ClassRecord.lines, Finset.mem_Icc] at hx hx'
    omega

/-- The methods of a class end in front of the classes behind it. -/
theorem disjoint_methods_of_follows (h : (Item.classItem c).Follows file (.classItem d))
    (hc : (Item.classItem c).InFile n) (hd : (Item.classItem d).InFile n) :
    ∀ f ∈ c.methods, ∀ g ∈ d.methods, Disjoint f.lines g.lines := by
  intro f hf g hg
  obtain ⟨-, -, hin⟩ := (tiled_methods hc).1 f hf
  obtain ⟨habove, -, hin'⟩ := (tiled_methods hd).1 g hg
  rcases h with hbefore | ⟨c', heq, hended, -⟩
  · exact (hbefore.disjoint rfl rfl).mono hin hin'
  · obtain rfl : c = c' := Item.classItem.inj heq
    obtain ⟨-, -, hbelow⟩ := hended.methods.between f hf
    have hline : (Item.classItem d).line = d.line := rfl
    have hfirst := hd.first
    rw [FunctionRecord.lines, FunctionRecord.lines, Finset.disjoint_left]
    intro x hx hx'
    rw [Finset.mem_Icc] at hx hx'
    omega

theorem ClassRecord.OverAt.mem_or_not_mem (h : c.OverAt file n) (hpos : 0 < c.lineCount) :
    n ∈ c.lines ∧ c.EndedAt file n ∨ n ∉ c.lines ∧ c.LeftAt file n := by
  rw [ClassRecord.lines, Finset.mem_Icc]
  rcases h with hended | hleft
  · have hlast := hended.last
    exact .inl ⟨by omega, hended⟩
  · have hlast := hleft.last
    exact .inr ⟨by omega, hleft⟩

/-- An outline whose items are in order is stacked. -/
theorem Outline.Holds.stacked (hholds : o.Holds items) (h : InOrder file items)
    (hcount : o.lineCount = file.length) : o.Stacked file := by
  have hclass : ∀ {c : ClassRecord}, c ∈ o.classes → (Item.classItem c).InFile file.length :=
    fun hc => h.inFile _ (hholds.mem_classes.mp hc)
  have hfunctions : o.functions.Pairwise fun f g => Disjoint f.lines g.lines := by
    rw [hholds.functions]
    exact Item.isKind_function.pairwise_filterMap h.ordered fun f g _ hfollows =>
      hfollows.disjoint rfl rfl (.inl fun c hc => by cases hc)
  have happart : ∀ f ∈ o.functions, ∀ c ∈ o.classes, Disjoint f.lines c.lines := by
    intro f hf c hc
    -- the function may stand in front of the class or behind it
    have hmeets : items.Pairwise (Item.Meets file) := h.ordered.imp .inl
    have hfollows := hmeets.forall (hholds.mem_functions.mp hf) (hholds.mem_classes.mp hc)
      (by simp)
    rcases hfollows with hfront | hbehind
    · exact hfront.disjoint rfl rfl (.inl fun c hc => by cases hc)
    · exact (hbehind.disjoint rfl rfl (.inr fun c hc => by cases hc)).symm
  have hfollows : o.classes.Pairwise fun c d =>
      (Item.classItem c).Follows file (.classItem d) := by
    rw [hholds.classes]
    exact Item.isKind_classItem.pairwise_filterMap h.ordered fun c d _ hfollows => hfollows
  refine ⟨hholds.bodies_inFile (hcount ▸ h.inFile), hfunctions, happart,
    hfollows.imp disjoint_erase_of_follows, ?_, fun c hc => (tiled_methods (hclass hc)).1, ?_⟩
  · rw [hholds.classes]
    refine h.classes.imp_of_mem_imp fun c d hc _ hover => hover.mem_or_not_mem ?_
    have hinFile := h.inFile _ (Item.isKind_classItem.mem_filterMap.mp hc)
    have hfirst := hinFile.first
    have hlast := hinFile.last.1
    simp only [Item.last, Item.line] at hfirst hlast
    omega
  · refine List.pairwise_append.mpr ⟨hfunctions, List.pairwise_flatMap.mpr ⟨?_, ?_⟩, ?_⟩
    · exact fun c hc => (tiled_methods (hclass hc)).2.imp And.left
    · exact hfollows.imp_of_mem fun hc hd hfol =>
        disjoint_methods_of_follows hfol (hclass hc) (hclass hd)
    · intro f hf g hg
      obtain ⟨c, hc, hmem⟩ := List.mem_flatMap.mp hg
      exact (happart f hf c hc).mono_right ((tiled_methods (hclass hc)).1 g hmem).2.2

end

/-- In the outline of a file of the indentation family, functions and methods do not overlap,
and a class shares a line only with a class that is nested in it: the header that ends it. -/
theorem Outline.stacked_build (path : String) (content : List Char) :
    (Outline.build path content .indent).Stacked (Text.lines content) :=
  (Outline.holds_build path content .indent).stacked
    (Indent.inOrder_allItems path (Text.lines content))
    (Outline.lineCount_build path content .indent)

/-- A class whose first line is the header of a class inside of it. -/
def nestedAtOnce : List Char := "class Outer:\n    class Inner:\n        x = 1\n".toList

/-- The class that is ended at once counts the line of the other one as its own. -/
theorem bodies_nestedAtOnce :
    (Outline.build "a.py" nestedAtOnce .indent).classes.map (fun c => (c.name, c.line, c.lineCount)) =
        [("Outer", 1, 2), ("Inner", 2, 2)] ∧
      ¬ (Outline.build "a.py" nestedAtOnce .indent).bodies.Pairwise Disjoint := by
  constructor
  · decide +kernel
  · decide +kernel

end CodeAtlas
