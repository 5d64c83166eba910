/-
What stands at which depth, in the brace family.

The scan keeps three accounts of curly brackets: one outside classes, which is not touched
while a class is read, one inside a class, and one inside an interface. None of them is
the true balance, the brackets that all lines in front leave open. Each starts at a line
of its own, forgets what falls below zero and does not count comment lines.

In a file that never closes more than it opened and has no block comments the accounts
are the true balance wherever the scan looks at them (`Levels`). The account outside
classes can be taken up again behind a class because the class has closed what it opened,
or is the end of the file. So what is recorded as top level stands at balance zero, and
what is recorded as a member at balance one.
-/
import CodeAtlas.Proofs.Extent.Return
import CodeAtlas.Proofs.Nesting.Quiet
import CodeAtlas.Proofs.Scan.Tiling

set_option autoImplicit false

namespace CodeAtlas

/-! ## The balance of a file -/

/-- The curly brackets that the first `i` lines leave open. -/
def balance (file : List Line) (i : Nat) : Int := netDelta (file.take i)

theorem balance_add (file : List Line) (i k : Nat) :
    balance file (i + k) = balance file i + netDelta ((file.drop i).take k) := by
  rw [balance, balance, List.take_add, netDelta_append]

theorem balance_window (file : List Line) (i further : Nat) :
    balance file (i + further + 1) =
      balance file i + netDelta (window further (file.drop i)) := by
  rw [Nat.add_assoc, balance_add]
  rfl

theorem netDelta_window_zero (ls : List Line) :
    netDelta (window 0 ls) = braceDelta (ls.headD []) := by
  cases ls with
  | nil => rfl
  | cons l ls => rw [window_zero_cons, netDelta_cons, netDelta_nil, Int.add_zero, List.headD_cons]

/-- No line begins a block comment, and no line closes a bracket that was not opened. -/
structure PlainFile (file : List Line) : Prop where
  noBlock : ∀ l ∈ file, Text.starts "/*" (Text.trim l) = false
  opened : ∀ i ≤ file.length, 0 ≤ balance file i

theorem PlainFile.noBlock_firstTrimmed {file : List Line} (h : PlainFile file) (i : Nat) :
    Text.starts "/*" (firstTrimmed (file.drop i)) = false := by
  unfold firstTrimmed
  cases hls : file.drop i with
  | nil => rfl
  | cons l ls => exact h.noBlock l (List.mem_of_mem_drop (hls ▸ List.mem_cons_self))

/-! ## Levels of items -/

/-- The line stands where the lines in front leave `depth` brackets open. Lines count from
one. -/
def AtLevel (file : List Line) (depth : Int) (line : Nat) : Prop :=
  0 < line ∧ balance file (line - 1) = depth

def Item.memberLines : Item → List Nat
  | classItem c => c.methods.map (·.line)
  | interface r => r.methods.map (·.line)
  | _ => []

/-- The item stands outside all brackets, and its members inside one. -/
structure Item.Leveled (file : List Line) (a : Item) : Prop where
  top : AtLevel file 0 a.line
  members : ∀ line ∈ a.memberLines, AtLevel file 1 line

namespace Brace

variable {file : List Line} {m : Moment}

/-- The methods of an interface that stands outside all brackets stand inside one. -/
theorem atLevel_of_standsInside {i line : Nat} (hlevel : balance file i = 0)
    (h : StandsInside (file.drop i) line) : AtLevel file 1 (line + i) := by
  have hbehind := h.behind
  have hdepth := h.depth
  refine ⟨by omega, ?_⟩
  have hsub : line + i - 1 = i + (line - 1) := by omega
  rw [hsub, balance_add, hlevel, hdepth]
  rfl

theorem leveled_of_line {a : Item} {i : Nat} (hline : a.line = i + 1)
    (hlevel : balance file i = 0) (hmembers : a.memberLines = []) : a.Leveled file := by
  refine ⟨⟨by omega, ?_⟩, fun line hmem => by simp [hmembers] at hmem⟩
  rw [hline]
  exact hlevel

theorem Declares.leveled {s : Scan} {i further : Nat} {items : List Item}
    (h : Declares s i (file.drop i) items further) (hlevel : balance file i = 0) :
    ∀ a ∈ items, a.Leveled file := by
  intro a ha
  have hline := (h.standsAt a ha).line
  cases h with
  | nothing => simp at ha
  | imports =>
    obtain ⟨r, -, rfl⟩ := List.mem_map.mp ha
    exact leveled_of_line hline hlevel rfl
  | type | function | constant =>
    rw [List.mem_singleton.mp ha] at hline ⊢
    exact leveled_of_line hline hlevel rfl
  | interface hit =>
    have hlocal := (isLocal_of_outside hit).2
    rw [List.mem_singleton.mp ha] at hline ⊢
    refine ⟨⟨by omega, by rw [hline]; exact hlevel⟩, fun line hmem => ?_⟩
    -- the methods were moved down with the interface, and then told their file
    simp only [Item.memberLines, InterfaceRecord.shift, List.map_map, List.mem_map] at hmem
    obtain ⟨f, hf, rfl⟩ := hmem
    exact atLevel_of_standsInside hlevel (hlocal f hf)

theorem leveled_of_mem_exportItems {i : Nat} {ls : List Line} {a : Item}
    (h : a ∈ exportItems i ls) (hlevel : balance file i = 0) : a.Leveled file := by
  obtain ⟨r, rfl, hline⟩ := line_of_mem_exportItems h
  exact leveled_of_line hline hlevel rfl

/-! ## Comments -/

/-- No comment is open. -/
def Calm (s : Scan) : Prop := s.pending.doc.isOpen = false ∧ s.inComment = false

/-- Without block comments the only comment lines are line comments, and they change
nothing. -/
theorem eq_of_commentLine? {s s' : Scan} {t : List Char} (hcalm : Calm s)
    (hblock : Text.starts "/*" t = false) (h : commentLine? s t = some s') :
    s' = s ∧ Text.starts "//" t = true := by
  rw [commentLine?_eq_of_closed hcalm hblock] at h
  split at h
  · rename_i hline
    exact ⟨(Option.some.inj h).symm, hline⟩
  · cases h

/-- A comment line leaves the balance as it is. -/
theorem balance_of_comment {s s' : Scan} {i : Nat} (hcalm : Calm s) (hplain : PlainFile file)
    (h : commentLine? s (firstTrimmed (file.drop i)) = some s') :
    s' = s ∧ balance file (i + 1) = balance file i := by
  obtain ⟨heq, hline⟩ := eq_of_commentLine? hcalm (hplain.noBlock_firstTrimmed i) h
  refine ⟨heq, ?_⟩
  have hwindow := balance_window file i 0
  rw [netDelta_window_zero, braceDelta_of_starts_comment hline] at hwindow
  rw [Nat.add_zero, Int.add_zero] at hwindow
  exact hwindow

theorem balance_of_blank {i : Nat} (h : firstTrimmed (file.drop i) = []) :
    balance file (i + 1) = balance file i := by
  have hwindow := balance_window file i 0
  rw [netDelta_window_zero, braceDelta_of_trim_eq_nil h, Nat.add_zero, Int.add_zero] at hwindow
  exact hwindow

/-! ## The accounts are the balance -/

/-- The class begins outside all brackets and has closed what it opened, unless it is the
end of the file, and its methods stand inside one bracket. -/
structure ClassLevels (file : List Line) (c : ClassScope) : Prop where
  line : c.record.line = c.start + 1
  start : balance file c.start = 0
  stop : balance file (c.stop + 1) = 0 ∨ c.stop + 1 = file.length
  methods : ∀ f ∈ c.record.methods, AtLevel file 1 f.line

/-- At a moment everything recorded stands at its level. Outside classes the account of the
scan is the balance; inside a class the scan's account has stopped at zero, and that of
the class is the balance. -/
structure Levels (file : List Line) (m : Moment) : Prop where
  calm : Calm m.scan
  items : ∀ a ∈ m.items, a.Leveled file
  outside : m.scan.scope = none → m.index < file.length → m.scan.depth = balance file m.index
  inside : ∀ c, m.scan.scope = some c → m.scan.depth = 0 ∧ m.index ≤ c.stop ∧
    c.depth = balance file m.index ∧ ClassLevels file c

/-- Outside classes nothing is to be said about the class that is open. -/
theorem levels_of_scope_none (hcalm : Calm m.scan) (hscope : m.scan.scope = none)
    (hitems : ∀ a ∈ m.items, a.Leveled file)
    (hdepth : m.index < file.length → m.scan.depth = balance file m.index) :
    Levels file m where
  calm := hcalm
  items := hitems
  outside _ := hdepth
  inside c hc := by
    rw [hscope] at hc
    cases hc

theorem ClassLevels.leveled {c : ClassScope} (h : ClassLevels file c) :
    (Item.closed c).Leveled file := by
  refine ⟨⟨?_, ?_⟩, fun line hline => ?_⟩
  · simp only [Item.closed, Item.line, ClassScope.finish_line, h.line]
    omega
  · simp only [Item.closed, Item.line, ClassScope.finish_line, h.line, Nat.add_sub_cancel]
    exact h.start
  · obtain ⟨f, hf, rfl⟩ := List.mem_map.mp hline
    exact h.methods f hf

/-- Where the balance does not fall below zero an account that never does keeps up with
it. -/
theorem max_balance_eq (hplain : PlainFile file) {i : Nat} {depth : Int} (further : Nat)
    (hdepth : depth = balance file i) (hle : i + further + 1 ≤ file.length) :
    max (depth + netDelta (window further (file.drop i))) 0 = balance file (i + further + 1) := by
  have hnonneg := hplain.opened _ hle
  rw [hdepth, ← balance_window]
  exact max_eq_left hnonneg

/-- Passing lines outside classes with their brackets counted keeps to the levels. -/
theorem levels_skip {s : Scan} {items : List Item} {further : Nat} (hplain : PlainFile file)
    (hcalm : Calm s) (hscope : s.scope = none) (hdepth : s.depth = balance file m.index)
    (hold : ∀ a ∈ m.items, a.Leveled file) (hitems : ∀ a ∈ items, a.Leveled file) :
    Levels file (m.follow (skip s items further (file.drop m.index))) := by
  refine levels_of_scope_none hcalm hscope ?_ fun hlt => ?_
  · exact List.forall_mem_append.mpr ⟨hold, hitems⟩
  · exact max_balance_eq hplain further hdepth (Nat.le_of_lt hlt)

/-- Passing a line without brackets keeps to the levels. -/
theorem levels_pass {s : Scan} (hcalm : Calm s) (hscope : s.scope = none)
    (hdepth : s.depth = balance file m.index)
    (hline : balance file (m.index + 1) = balance file m.index)
    (hold : ∀ a ∈ m.items, a.Leveled file) :
    Levels file (m.follow (.done s [] 0)) := by
  refine levels_of_scope_none hcalm hscope (fun a ha => ?_) fun _ => ?_
  · rw [Moment.follow, List.append_nil] at ha
    exact hold a ha
  · show s.depth = balance file (m.index + 1)
    rw [hline]
    exact hdepth

/-- A class that opens outside all brackets has closed them behind its last line, unless it
is the end of the file. -/
theorem classLevels_openedScope (hplain : PlainFile file) {i : Nat} (hlt : i < file.length)
    (hlevel : balance file i = 0) (s : Scan) (head : ClassHead) (doc : Doc)
    (decorators : List String) :
    ClassLevels file (openedScope s head i (file.drop i) doc decorators) where
  line := rfl
  start := hlevel
  stop := by
    have hne := Moment.drop_ne_nil hlt
    have hlen := List.length_drop (i := i) (l := file)
    have hextent := braceExtent_lt hne
    show balance file (i + braceExtent (file.drop i) + 1) = 0 ∨
      i + braceExtent (file.drop i) + 1 = file.length
    rcases netDelta_window_braceExtent hne with hreturn | hend
    · -- it cannot have closed more than it opened, since the file never does
      have hwindow := balance_window file i (braceExtent (file.drop i))
      have hnonneg := hplain.opened (i + braceExtent (file.drop i) + 1) (by omega)
      exact .inl (by omega)
    · exact .inr (by omega)
  methods f hf := by simp [openedScope, classRecord] at hf

theorem levels_openClass (hplain : PlainFile file) {s : Scan} {head : ClassHead} {doc : Doc}
    {decorators : List String} (hlt : m.index < file.length) (hcalm : Calm s)
    (hscope : s.scope = none) (hdepth : s.depth = 0) (hlevel : balance file m.index = 0)
    (hold : ∀ a ∈ m.items, a.Leveled file) :
    Levels file (m.follow (withItems (exportItems m.index (file.drop m.index))
      (openClass s head m.index (file.drop m.index) doc decorators))) := by
  have hlevels := classLevels_openedScope hplain hlt hlevel s head doc decorators
  have hexports : ∀ a ∈ exportItems m.index (file.drop m.index), a.Leveled file :=
    fun a ha => leveled_of_mem_exportItems ha hlevel
  have hextent := extent_openedScope s head m.index (file.drop m.index) doc decorators
  rw [openClass_eq]
  split
  · rename_i hzero
    rw [hextent] at hzero
    refine levels_of_scope_none hcalm hscope ?_ fun hindex => ?_
    · refine List.forall_mem_append.mpr ⟨hold, List.forall_mem_append.mpr ⟨hexports, ?_⟩⟩
      exact List.forall_mem_singleton.mpr hlevels.leveled
    · -- the class is one line, so the balance behind it is that behind its last line
      rcases hlevels.stop with hstop | hend
      · simp only [openedScope, hzero, Nat.add_zero] at hstop
        exact hdepth.trans hstop.symm
      · simp only [openedScope, hzero, Nat.add_zero] at hend
        simp only [Moment.follow, withItems] at hindex
        omega
  -- the class goes on behind its header
  · rename_i hmore
    rw [hextent] at hmore
    refine ⟨hcalm, ?_, fun hnone => ?_, fun c hc => ?_⟩
    · simp only [Moment.follow, withItems, List.append_nil]
      exact List.forall_mem_append.mpr ⟨hold, hexports⟩
    · simp [Moment.follow, withItems] at hnone
    · -- the account of the class begins with its own line, and the balance with zero
      obtain rfl : openedScope s head m.index (file.drop m.index) doc decorators = c :=
        Option.some.inj hc
      refine ⟨hdepth, ?_, ?_, hlevels⟩
      · simp only [Moment.follow, withItems, openedScope]
        omega
      · have hone := max_balance_eq hplain 0 hlevel.symm (by omega)
        rw [netDelta_window_zero, Int.zero_add] at hone
        exact hone

/-- A call outside classes keeps to the levels. -/
theorem OutsideCase.levels {step : Step} (hplain : PlainFile file)
    (h : OutsideCase m.scan m.index (file.drop m.index) step) (hlt : m.index < file.length)
    (hscope : m.scan.scope = none) (hlevels : Levels file m) : Levels file (m.follow step) := by
  have hcalm := hlevels.calm
  have hold := hlevels.items
  have hdepth := hlevels.outside hscope hlt
  have hnonneg := hplain.opened m.index (Nat.le_of_lt hlt)
  cases h with
  | comment hcomment =>
    obtain ⟨rfl, hline⟩ := balance_of_comment hcalm hplain hcomment
    exact levels_pass hcalm hscope hdepth hline hold
  | blank _ hblank =>
    exact levels_pass ⟨rfl, hcalm.2⟩ hscope hdepth (balance_of_blank hblank) hold
  | deep => exact levels_skip hplain ⟨rfl, hcalm.2⟩ hscope hdepth hold (fun a ha => by simp at ha)
  | decorator =>
    exact levels_skip hplain ⟨hcalm.1, hcalm.2⟩ hscope hdepth hold (fun a ha => by simp at ha)
  | declares _ hzero hdecl =>
    have hlevel : balance file m.index = 0 := by omega
    refine levels_skip hplain ⟨rfl, hcalm.2⟩ hscope hdepth hold ?_
    exact List.forall_mem_append.mpr
      ⟨fun a ha => leveled_of_mem_exportItems ha hlevel, hdecl.leveled hlevel⟩
  | classHead _ hzero =>
    have hlevel : balance file m.index = 0 := by omega
    exact levels_openClass hplain hlt ⟨rfl, hcalm.2⟩ hscope (hdepth.trans hlevel) hlevel hold

/-- A call inside a class opens no comment and leaves the account of the scan alone. -/
theorem InsideCase.calm {s s' : Scan} {c c' : ClassScope} {i further : Nat}
    (hplain : PlainFile file) (h : InsideCase s c i (file.drop i) (s', c', further))
    (hcalm : Calm s) : Calm s' ∧ s'.depth = s.depth := by
  cases h with
  | comment _ hcomment =>
    obtain ⟨rfl, -⟩ := balance_of_comment hcalm hplain hcomment
    exact ⟨hcalm, rfl⟩
  | closing => exact ⟨hcalm, rfl⟩
  | decorator => exact ⟨⟨hcalm.1, hcalm.2⟩, rfl⟩
  | _ => exact ⟨⟨rfl, hcalm.2⟩, rfl⟩

/-- In front of the last line of a class the account of the class keeps up with the
balance. -/
theorem InsideCase.depth_eq {s s' : Scan} {c c' : ClassScope} {i further : Nat}
    (hplain : PlainFile file) (h : InsideCase s c i (file.drop i) (s', c', further))
    (hcalm : Calm s) (hdepth : c.depth = balance file i) (hopen : i < c.stop)
    (hle : i + further + 1 ≤ file.length) : c'.depth = balance file (i + further + 1) := by
  cases h with
  -- this would be the last line
  | closing hstop => omega
  | comment _ hcomment =>
    obtain ⟨-, hline⟩ := balance_of_comment hcalm hplain hcomment
    exact hdepth.trans hline.symm
  | blank _ _ hblank => exact hdepth.trans (balance_of_blank hblank).symm
  | property =>
    rw [deepen_depth, ClassScope.addProperty_depth]
    exact max_balance_eq hplain 0 hdepth hle
  | method =>
    rw [ClassScope.addMethod_depth, deepen_depth]
    exact max_balance_eq hplain _ hdepth hle
  | _ => exact max_balance_eq hplain 0 hdepth hle

/-- A method that is added stands inside one bracket, because the account of its class
says so. -/
theorem InsideCase.classLevels {s s' : Scan} {c c' : ClassScope} {i further : Nat}
    (h : InsideCase s c i (file.drop i) (s', c', further)) (hne : file.drop i ≠ [])
    (hdepth : c.depth = balance file i) (hold : ClassLevels file c) : ClassLevels file c' := by
  obtain ⟨hstart, hstop, hline, -, -⟩ := h.frame hne
  refine ⟨by rw [hline, hstart]; exact hold.line, by rw [hstart]; exact hold.start,
    by rw [hstop]; exact hold.stop, fun f hf => ?_⟩
  cases h with
  | method _ _ hone =>
    -- the handler looks for methods only where the account is one
    rw [ClassScope.addMethod_methods, deepen_record] at hf
    rcases List.mem_append.mp hf with hf | hf
    · exact hold.methods f hf
    · rw [List.mem_singleton.mp hf]
      refine ⟨Nat.succ_pos _, ?_⟩
      simp only [functionRecord, Nat.add_sub_cancel]
      rw [← hdepth]
      exact hone
  | property =>
    rw [deepen_record, ClassScope.addProperty_methods] at hf
    exact hold.methods f hf
  | _ => exact hold.methods f hf

/-- A call inside a class keeps to the levels. -/
theorem levels_inside (hplain : PlainFile file) (hfamily : m.scan.family = .brace)
    (hlt : m.index < file.length) {c : ClassScope} (hscope : m.scan.scope = some c)
    (hlevels : Levels file m) : Levels file (m.next file) := by
  have hne := Moment.drop_ne_nil hlt
  obtain ⟨hzero, hwithin, hdepth, hclass⟩ := hlevels.inside c hscope
  obtain ⟨s', c', further, hcase, hnext⟩ := next_inside file hfamily hscope
  obtain ⟨hstart, hstop, -, hfurther, hlen⟩ := hcase.frame hne
  obtain ⟨hcalm', hdepth'⟩ := hcase.calm hplain hlevels.calm
  have hclass' := hcase.classLevels hne hdepth hclass
  rw [List.length_drop] at hlen
  rw [hnext]
  split
  · rename_i hbehind
    refine levels_of_scope_none hcalm' rfl ?_ fun hindex => ?_
    · exact List.forall_mem_append.mpr
        ⟨hlevels.items, List.forall_mem_singleton.mpr hclass'.leveled⟩
    · -- the account outside is still zero, and so is the balance behind the class
      have hend : m.index + further + 1 = c'.stop + 1 := by omega
      have hindex : m.index + further + 1 < file.length := hindex
      have hstop' : balance file (c'.stop + 1) = 0 := by
        rcases hclass'.stop with hstop' | hlast
        · exact hstop'
        · omega
      show s'.depth = balance file (m.index + further + 1)
      rw [hend, hstop', hdepth']
      exact hzero
  · rename_i hinside
    refine ⟨hcalm', fun a ha => ?_, fun hnone => (by cases hnone), fun c'' hc => ?_⟩
    · rw [Moment.follow, List.append_nil] at ha
      exact hlevels.items a ha
    · obtain rfl : c' = c'' := Option.some.inj hc
      have hopen : m.index + further + 1 ≤ c'.stop := by omega
      exact ⟨hdepth'.trans hzero, hopen,
        hcase.depth_eq hplain hlevels.calm hdepth (by omega) (by omega), hclass'⟩

/-- At every moment of a scan of a plain file everything recorded stands at its level. -/
theorem levels_of_reached {path : String} (hplain : PlainFile file)
    (h : Moment.Reached file (.start path .brace) m) : Levels file m := by
  induction h with
  | first =>
    exact levels_of_scope_none ⟨rfl, rfl⟩ rfl (fun a ha => by simp [Moment.start] at ha)
      fun _ => rfl
  | @next m hreached hlt ih =>
    have hfamily := (sameFile_of_reached hreached).2
    cases hscope : m.scan.scope with
    | none =>
      obtain ⟨step, hcase, hnext⟩ := next_outside file hfamily hscope
      rw [hnext]
      exact hcase.levels hplain hlt hscope ih
    | some c => exact levels_inside hplain hfamily hlt hscope ih

/-- All items of a scan of a plain file stand at their levels. -/
theorem leveled_of_mem_allItems {path : String} (hplain : PlainFile file) {a : Item}
    (ha : a ∈ (Moment.last path .brace file).allItems) : a.Leveled file := by
  have hlevels := levels_of_reached hplain (Moment.reached_last path .brace file)
  rcases List.mem_append.mp ha with ha | ha
  · exact hlevels.items a ha
  · obtain ⟨c, hc, rfl⟩ := Option.map_eq_some_iff.mp (Option.mem_toList.mp ha)
    exact (hlevels.inside c hc).2.2.2.leveled

end Brace

/-! ## Outlines -/

/-- The lines of what the outline holds as top level. -/
def Outline.topLines (o : Outline) : List Nat :=
  o.functions.map (·.line) ++ o.classes.map (·.line) ++ o.plainLines ++ o.exports.map (·.line)

/-- The lines of the methods of classes and interfaces. -/
def Outline.memberLines (o : Outline) : List Nat :=
  o.classes.flatMap (fun c => c.methods.map (·.line)) ++
    o.interfaces.flatMap (fun r => r.methods.map (·.line))

section

variable {o : Outline} {items : List Item} {line : Nat}

theorem Outline.Holds.mem_topLines (hholds : o.Holds items) (h : line ∈ o.topLines) :
    ∃ a ∈ items, a.line = line := by
  simp only [Outline.topLines, List.mem_append, List.mem_map] at h
  rcases h with ((⟨r, hr, rfl⟩ | ⟨c, hc, rfl⟩) | hplain) | ⟨e, he, rfl⟩
  · exact ⟨_, hholds.mem_functions.mp hr, rfl⟩
  · exact ⟨_, hholds.mem_classes.mp hc, rfl⟩
  · obtain ⟨a, ha, heq, -, -⟩ := hholds.mem_plainLines hplain
    exact ⟨a, ha, heq⟩
  · exact ⟨_, hholds.mem_exports.mp he, rfl⟩

theorem Outline.Holds.mem_memberLines (hholds : o.Holds items) (h : line ∈ o.memberLines) :
    ∃ a ∈ items, line ∈ a.memberLines := by
  simp only [Outline.memberLines, List.mem_append, List.mem_flatMap] at h
  rcases h with ⟨c, hc, hline⟩ | ⟨r, hr, hline⟩
  · exact ⟨_, hholds.mem_classes.mp hc, hline⟩
  · exact ⟨_, hholds.mem_interfaces.mp hr, hline⟩

end

/-- In a file of the brace family that has no block comments and never closes more than it
opened, everything held as top level stands outside all brackets, and every method of a
class or an interface inside exactly one. -/
theorem Outline.levels_build (path : String) (content : List Char)
    (hplain : PlainFile (Text.lines content)) :
    (∀ line ∈ (Outline.build path content .brace).topLines,
        AtLevel (Text.lines content) 0 line) ∧
      ∀ line ∈ (Outline.build path content .brace).memberLines,
        AtLevel (Text.lines content) 1 line := by
  have hholds := Outline.holds_build path content .brace
  constructor
  · intro line hline
    obtain ⟨a, ha, rfl⟩ := hholds.mem_topLines hline
    exact (Brace.leveled_of_mem_allItems hplain ha).top
  · intro line hline
    obtain ⟨a, ha, hmem⟩ := hholds.mem_memberLines hline
    exact (Brace.leveled_of_mem_allItems hplain ha).members line hmem

/-- A file with a class, an interface and a function. -/
def classAndInterface : List Char :=
  ("class A \x7b\n  m() \x7b \x7d\n\x7d\n" ++ "interface I \x7b\n  go(): void;\n\x7d\n" ++
    "function f() \x7b\n\x7d\n").toList

theorem levels_classAndInterface :
    PlainFile (Text.lines classAndInterface) ∧
      (Outline.build "a.ts" classAndInterface .brace).topLines = [7, 1, 4] ∧
      (Outline.build "a.ts" classAndInterface .brace).memberLines = [2, 5] ∧
      (∀ line ∈ (Outline.build "a.ts" classAndInterface .brace).topLines,
        AtLevel (Text.lines classAndInterface) 0 line) ∧
      ∀ line ∈ (Outline.build "a.ts" classAndInterface .brace).memberLines,
        AtLevel (Text.lines classAndInterface) 1 line := by
  have hplain : PlainFile (Text.lines classAndInterface) :=
    ⟨by decide +kernel, by decide +kernel⟩
  exact ⟨hplain, by decide +kernel, by decide +kernel,
    Outline.levels_build "a.ts" classAndInterface hplain⟩

end CodeAtlas
