/-
Carrying a scan over to another file.

A file may change in ways that a scan does not notice: all its lines move down, because
others were put in front, or the blanks in front of its lines become wider. A scan that
reads from a line on does not know where in the file the line stands, since every line
number that it writes down is the index it was given plus something counted from there;
and of the blanks in front of a line it asks only whether they are wider than those of
another one. So the scan of the changed file runs beside the scan of the file, call by
call (`step_carry`), and what it records is what the other one records, moved down
(`itemsFrom_carry`).
-/
import CodeAtlas.Proofs.Analysis.Reindent
import CodeAtlas.Proofs.Header.Reindent
import CodeAtlas.Proofs.Scan.BraceMove

set_option autoImplicit false

namespace CodeAtlas

/-! ## Moving records down -/

def Item.shift (n : Nat) : Item → Item
  | function r => function (r.shift n)
  | classItem r => classItem (r.shift n)
  | interface r => interface (r.shift n)
  | type r => type (r.shift n)
  | constant r => constant (r.shift n)
  | importItem r => importItem (r.shift n)
  | exportItem r => exportItem (r.shift n)

section

variable (n at_ : Nat)

theorem FunctionRecord.shift_shift (r : FunctionRecord) :
    r.shift (at_ + n) = (r.shift at_).shift n := by
  simp only [shift, Nat.add_assoc]

theorem Construct.shift_shift (c : Construct) : c.shift (at_ + n) = (c.shift at_).shift n := by
  cases c with
  | imports rs =>
    simp only [shift, List.map_map]
    congr 1
    refine List.map_congr_left fun r _ => ?_
    simp only [Function.comp_apply, ImportRecord.shift, Nat.add_assoc]
  | interface r =>
    simp only [shift, InterfaceRecord.shift, List.map_map, Nat.add_assoc]
    congr 2
    exact List.map_congr_left fun f _ => f.shift_shift n at_
  | type r => simp only [shift, TypeRecord.shift, Nat.add_assoc]
  | constant r => simp only [shift, ConstantRecord.shift, Nat.add_assoc]
  | _ => rfl

theorem ExportRecord.shift_shift (r : ExportRecord) :
    r.shift (at_ + n) = (r.shift at_).shift n := by
  simp only [shift, Nat.add_assoc]

end

/-! ## Changes of files -/

/-- A change of files: what becomes of a line and of the width of the blanks in front of
it, and by how many lines everything moves down. -/
structure Carry where
  line : Line → Line
  width : Nat → Nat
  down : Nat

namespace Carry

def scope (t : Carry) (c : ClassScope) : ClassScope :=
  { c with record := c.record.shift t.down, text := c.text.map t.line, start := c.start + t.down,
           stop := c.stop + t.down, indent := t.width c.indent }

def scan (t : Carry) (s : Scan) : Scan := { s with scope := s.scope.map t.scope }

def items (t : Carry) (items : List Item) : List Item := items.map (·.shift t.down)

theorem items_append (t : Carry) (xs ys : List Item) :
    t.items (xs ++ ys) = t.items xs ++ t.items ys := List.map_append

/-- What a call returned, carried over. -/
def step (t : Carry) : Step → Step
  | .done s items further => .done (t.scan s) (t.items items) further
  | .again s items => .again (t.scan s) (t.items items)

end Carry

variable {t : Carry}

/-! ## Classes and functions -/

section

variable (t) (c : ClassScope)

theorem ClassScope.extent_carry : (t.scope c).extent = c.extent := Nat.add_sub_add_right _ _ _

theorem ClassScope.addMethod_carry (f : FunctionRecord) :
    (t.scope c).addMethod (f.shift t.down) = t.scope (c.addMethod f) := by
  simp only [addMethod, Carry.scope, ClassRecord.shift, List.map_append, List.map_cons,
    List.map_nil]

theorem ClassScope.addProperty_carry (p : Property) :
    (t.scope c).addProperty p = t.scope (c.addProperty p) := by
  have hproperties : (t.scope c).record.properties = c.record.properties := rfl
  unfold addProperty
  rw [hproperties]
  by_cases hthere : (c.record.properties.any (·.name == p.name)) = true
  · rw [if_pos hthere, if_pos hthere]
  · rw [if_neg hthere, if_neg hthere]
    rfl

theorem ClassScope.addProperties_carry (ps : List Property) :
    ps.foldl addProperty (t.scope c) = t.scope (ps.foldl addProperty c) :=
  List.foldl_hom t.scope fun c p => addProperty_carry t c p

end

section

variable (h : Reindents t.line t.width) (s : Scan) (c : ClassScope) (at_ : Nat)
include h

theorem Item.closed_carry : closed (t.scope c) = (closed c).shift t.down := by
  have hpattern : designPatternOf (window c.extent (c.text.map t.line)) =
      designPatternOf (window c.extent c.text) := by
    rw [window_map, h.designPatternOf]
  have hextent := c.extent_carry t
  simp only [closed, Item.shift, ClassScope.finish, hextent]
  simp only [Carry.scope, ClassRecord.shift, hpattern]

theorem functionRecord_carry (head : FunctionHead) (extent : Nat) (ls : List Line) (doc : Doc)
    (decorators : List String) :
    functionRecord (t.scan s) head (at_ + t.down) extent (ls.map t.line) doc decorators =
      (functionRecord s head at_ extent ls doc decorators).shift t.down := by
  simp only [functionRecord, window_map, h.analyseBody, FunctionRecord.shift,
    Nat.add_right_comm at_ t.down 1]
  rfl

end

/-! ## The brace family -/

namespace Brace

theorem commentLine?_carry (s : Scan) (text : List Char) :
    commentLine? (t.scan s) text = (commentLine? s text).map t.scan := by
  have hpending : (t.scan s).pending = s.pending := rfl
  have hcomment : (t.scan s).inComment = s.inComment := rfl
  simp only [commentLine?, hpending, hcomment, apply_ite (Option.map t.scan), Option.map_some,
    Option.map_none]
  rfl

section

variable (h : Reindents t.line t.width) (s : Scan) (c : ClassScope) (at_ : Nat)
include h

theorem skip_carry (items : List Item) (further : Nat) (ls : List Line) :
    skip (t.scan s) (t.items items) further (ls.map t.line) =
      t.step (skip s items further ls) := by
  simp only [skip, window_map, h.netDelta]
  rfl

theorem openClass_carry (head : ClassHead) {ls : List Line} (hne : ls ≠ []) (doc : Doc)
    (decorators : List String) :
    openClass (t.scan s) head (at_ + t.down) (ls.map t.line) doc decorators =
      t.step (openClass s head at_ ls doc decorators) := by
  have hscope : openedScope (t.scan s) head (at_ + t.down) (ls.map t.line) doc decorators =
      t.scope (openedScope s head at_ ls doc decorators) := by
    simp only [openedScope, Carry.scope, classRecord, ClassRecord.shift, h.braceExtent,
      h.braceDelta_headD, h.indentation_headD hne, List.map_nil, Nat.add_right_comm at_ t.down]
    rfl
  rw [openClass_eq, openClass_eq, hscope, ClassScope.extent_carry]
  by_cases hflat : (openedScope s head at_ ls doc decorators).extent = 0
  · rw [if_pos hflat, if_pos hflat, Item.closed_carry h]
    rfl
  · rw [if_neg hflat, if_neg hflat]
    rfl

theorem record_carry (construct : Construct) {ls : List Line} (hne : ls ≠ []) :
    record (t.scan s) construct (at_ + t.down) (ls.map t.line) =
      t.step (record s construct at_ ls) := by
  unfold record
  rw [construct.shift_shift]
  cases construct.shift at_ with
  | imports rs =>
    refine Eq.trans ?_ (skip_carry h s.forget (rs.map .importItem) 0 ls)
    simp only [Construct.shift, Carry.items, List.map_map]
    rfl
  | classHead head => exact openClass_carry h s.forget at_ head hne _ _
  | interface r =>
    refine Eq.trans ?_ (skip_carry h s.forget _ (braceExtent ls) ls)
    simp only [Construct.shift, Carry.items, InterfaceRecord.shift, Item.shift, List.map_map,
      List.map_cons, List.map_nil, h.braceExtent]
    rfl
  | type r =>
    refine Eq.trans ?_ (skip_carry h s.forget _
      (if 0 < braceDelta (ls.headD []) then braceExtent ls else 0) ls)
    simp only [Construct.shift, h.braceDelta_headD, h.braceExtent]
    rfl
  | function head =>
    refine Eq.trans ?_ (skip_carry h s.forget _ (bodyExtent head ls) ls)
    simp only [Construct.shift, h.braceBodyExtent head hne, Carry.items, List.map_cons,
      List.map_nil, Item.shift, ← functionRecord_carry h]
    rfl
  | constant r =>
    refine Eq.trans ?_ (skip_carry h s.forget _ 0 ls)
    rfl
  | method head => exact skip_carry h s.forget [] 0 ls
  | property p => exact skip_carry h s.forget [] 0 ls
  | decorator d => exact skip_carry h s.forget [] 0 ls

omit h in
theorem withItems_carry (items : List Item) (step : Step) :
    withItems (t.items items) (t.step step) = t.step (withItems items step) := by
  cases step <;> simp only [withItems, Carry.step, t.items_append]

theorem outsideStep_carry {ls : List Line} (hne : ls ≠ []) :
    outsideStep (t.scan s) (at_ + t.down) (ls.map t.line) = t.step (outsideStep s at_ ls) := by
  unfold outsideStep
  simp only [h.firstTrimmed, commentLine?_carry, h.braceOutside]
  cases commentLine? s (firstTrimmed ls) with
  | some s' => rfl
  | none =>
    simp only [Option.map_none]
    by_cases hblank : (firstTrimmed ls).isEmpty = true
    · rw [if_pos hblank, if_pos hblank]
      rfl
    rw [if_neg hblank, if_neg hblank]
    have hdepth : (t.scan s).depth = s.depth := rfl
    rw [hdepth]
    by_cases hdeep : 0 < s.depth
    · rw [if_pos hdeep, if_pos hdeep]
      exact skip_carry h (s.withPending s.pending.dropDoc) [] 0 ls
    rw [if_neg hdeep, if_neg hdeep]
    split
    · rename_i d _
      exact skip_carry h (s.withPending (s.pending.decorate (trimmedText d))) [] 0 ls
    · have hexports : ((exportsOf (firstTrimmed ls)).map fun r =>
          Item.exportItem (r.shift (at_ + t.down))) =
          t.items ((exportsOf (firstTrimmed ls)).map fun r => .exportItem (r.shift at_)) := by
        simp only [Carry.items, List.map_map, ExportRecord.shift_shift]
        rfl
      rw [hexports, ← withItems_carry]
      cases firstHit outside ls with
      | none => exact congrArg (withItems _) (skip_carry h s.forget [] 0 ls)
      | some hit => exact congrArg (withItems _) (record_carry h s at_ hit.2 hne)

theorem deepen_carry (further : Nat) (ls : List Line) :
    deepen (t.scope c) further (ls.map t.line) = t.scope (deepen c further ls) := by
  simp only [deepen, window_map, h.netDelta]
  rfl

theorem insideLine_carry (ls : List Line) :
    insideLine (t.scan s) (t.scope c) (at_ + t.down) (ls.map t.line) =
      (t.scan (insideLine s c at_ ls).1, t.scope (insideLine s c at_ ls).2.1,
        (insideLine s c at_ ls).2.2) := by
  -- places are only compared with one another, and all move down alike
  have hstop : (t.scope c).stop ≤ at_ + t.down ↔ c.stop ≤ at_ := Nat.add_le_add_iff_right
  have hrest : (t.scope c).stop - (at_ + t.down) = c.stop - at_ := Nat.add_sub_add_right _ _ _
  have hdepth : (t.scope c).depth = c.depth := rfl
  unfold insideLine
  simp only [hstop, hrest, hdepth, h.firstTrimmed, commentLine?_carry, h.braceInside]
  by_cases hend : c.stop ≤ at_
  · rw [if_pos hend, if_pos hend]
  rw [if_neg hend, if_neg hend]
  cases commentLine? s (firstTrimmed ls) with
  | some s' => rfl
  | none =>
    simp only [Option.map_none]
    by_cases hblank : (firstTrimmed ls).isEmpty = true
    · rw [if_pos hblank, if_pos hblank]
      rfl
    rw [if_neg hblank, if_neg hblank]
    by_cases hdeep : c.depth ≠ 1
    · rw [if_pos hdeep, if_pos hdeep, deepen_carry h]
      rfl
    rw [if_neg hdeep, if_neg hdeep]
    split
    · rw [deepen_carry h]
      rfl
    · split
      · rw [h.blockExtent, deepen_carry h, functionRecord_carry h, ClassScope.addMethod_carry]
        rfl
      · rw [ClassScope.addProperty_carry, deepen_carry h]
        rfl
      · rw [deepen_carry h]
        rfl

theorem insideStep_carry (ls : List Line) :
    insideStep (t.scan s) (t.scope c) (at_ + t.down) (ls.map t.line) =
      t.step (insideStep s c at_ ls) := by
  have hend : (t.scope (insideLine s c at_ ls).2.1).stop <
      at_ + t.down + (insideLine s c at_ ls).2.2 + 1 ↔
      (insideLine s c at_ ls).2.1.stop < at_ + (insideLine s c at_ ls).2.2 + 1 := by
    simp only [Carry.scope]
    omega
  rw [insideStep_eq, insideStep_eq, insideLine_carry h]
  simp only [hend, Item.closed_carry h]
  split <;> rfl

end

end Brace

/-! ## The indentation family -/

namespace Indent

section

variable (h : Reindents t.line t.width) (s : Scan) (c : ClassScope) (at_ : Nat)
include h

theorem openClass_carry (head : ClassHead) {ls : List Line} (hne : ls ≠ []) :
    openClass (t.scan s) head (at_ + t.down) (ls.map t.line) =
      t.step (openClass s head at_ ls) := by
  unfold openClass
  simp only [h.indentation_headD hne, ← List.map_drop, h.docstringWithin]
  cases Docstring.within? (Text.indentation (ls.headD [])) (ls.drop 1) with
  | none =>
    simp only [Carry.step, Carry.scan, Carry.scope, classRecord, ClassRecord.shift, List.map_nil,
      Option.map_some, Nat.add_right_comm at_ t.down]
    rfl
  | some d =>
    simp only [Carry.step, Carry.scan, Carry.scope, classRecord, ClassRecord.shift, List.map_nil,
      Option.map_some, Nat.add_right_comm at_ t.down]
    rfl

theorem record_carry (construct : Construct) {ls : List Line} (hne : ls ≠ []) :
    record (t.scan s) construct (at_ + t.down) (ls.map t.line) =
      t.step (record s construct at_ ls) := by
  unfold record
  rw [construct.shift_shift]
  cases construct.shift at_ with
  | imports rs =>
    simp only [Construct.shift, h.joinBrackets, Carry.step, Carry.items, List.map_map]
    rfl
  | classHead head => exact openClass_carry h s at_ head hne
  | function head =>
    simp only [Construct.shift, h.indentBodyExtent head hne, h.docOf head hne, Carry.step,
      Carry.items, List.map_cons, List.map_nil, Item.shift, ← functionRecord_carry h]
    rfl
  | _ => rfl

theorem outsideStep_carry {ls : List Line} (hne : ls ≠ []) :
    outsideStep (t.scan s) (at_ + t.down) (ls.map t.line) = t.step (outsideStep s at_ ls) := by
  unfold outsideStep
  simp only [h.firstTrimmed, h.docstringAt, h.joinBrackets, h.indentOutside]
  by_cases hsilent : saysNothing (firstTrimmed ls) = true
  · rw [if_pos hsilent, if_pos hsilent]
    rfl
  rw [if_neg hsilent, if_neg hsilent]
  cases Docstring.at? ls with
  | some d => rfl
  | none =>
    by_cases hall : Text.starts "__all__" (firstTrimmed ls) = true
    · simp only [if_pos hall, Carry.step, Carry.items, List.map_map, ExportRecord.shift_shift]
      rfl
    simp only [if_neg hall]
    cases firstHit outside ls with
    | none => rfl
    | some hit => exact record_carry h s at_ hit.2 hne

omit h in
theorem beforeMethod_carry (decorators : List String) (assigned : List Property) :
    beforeMethod (t.scope c) decorators assigned =
      t.scope (beforeMethod c decorators assigned) := by
  rw [beforeMethod, beforeMethod, ← ClassScope.addProperties_carry]
  rfl

theorem addMethod_carry (head : FunctionHead) {ls : List Line} (hne : ls ≠ []) :
    addMethod (t.scan s) (t.scope c) head (at_ + t.down) (ls.map t.line) =
      (t.scope (addMethod s c head at_ ls).1, (addMethod s c head at_ ls).2) := by
  have hassigned : assignedBy head (ls.map t.line) = assignedBy head ls := by
    rw [assignedBy, h.indentBodyExtent head hne, window_map, ← List.map_drop,
      h.assignedProperties, assignedBy]
  have hpending : (t.scan s).pending = s.pending := rfl
  have hmethod : ∀ f : FunctionRecord, asMethod (f.shift t.down) = (asMethod f).shift t.down :=
    fun _ => rfl
  rw [addMethod_eq, addMethod_eq, hassigned, hpending, h.indentBodyExtent head hne,
    h.docOf head hne, beforeMethod_carry, functionRecord_carry h, hmethod,
    ClassScope.addMethod_carry, Nat.add_right_comm at_ t.down]
  rfl

theorem insideStep_carry {ls : List Line} (hne : ls ≠ []) :
    insideStep (t.scan s) (t.scope c) (at_ + t.down) (ls.map t.line) =
      t.step (insideStep s c at_ ls) := by
  have hends : closesClass (t.scope c).indent ((ls.map t.line).headD []) =
      closesClass c.indent (ls.headD []) := h.closesClass c.indent hne
  unfold insideStep
  simp only [h.firstTrimmed, h.docstringAt, h.indentInside, hends]
  by_cases hsilent : saysNothing (firstTrimmed ls) = true
  · rw [if_pos hsilent, if_pos hsilent]
    rfl
  rw [if_neg hsilent, if_neg hsilent]
  by_cases hcloses : closesClass c.indent (ls.headD []) = true
  · rw [if_pos hcloses, if_pos hcloses, Item.closed_carry h]
    rfl
  rw [if_neg hcloses, if_neg hcloses]
  cases Docstring.at? ls with
  | some d =>
    simp only [Nat.add_right_comm at_ t.down]
    rfl
  | none =>
    simp only
    split
    · rfl
    · exact congrArg (fun item => Step.again (t.scan s).leaveClass [item])
        (Item.closed_carry h { c with stop := at_ })
    · rename_i head _
      exact congrArg (fun added : ClassScope × Nat =>
          Step.done { (t.scan s).withPending s.pending.dropDecorators with scope := some added.1 }
            [] added.2)
        (addMethod_carry h s { c with stop := at_ } at_ head hne)
    · rename_i p _
      exact congrArg (fun c => Step.done { (t.scan s).forget with scope := some c } [] 0)
        (ClassScope.addProperty_carry t { c with stop := at_ } p)
    · rfl

end

end Indent

/-! ## Whole scans -/

namespace Scan

section

variable (h : Reindents t.line t.width) (s : Scan) (at_ : Nat)
include h

theorem step_carry {ls : List Line} (hne : ls ≠ []) :
    (t.scan s).step (at_ + t.down) (ls.map t.line) = t.step (s.step at_ ls) := by
  have hfamily : (t.scan s).family = s.family := rfl
  cases hscope : s.scope with
  | none =>
    have hscope' : (t.scan s).scope = none := by rw [Carry.scan, hscope, Option.map_none]
    simp only [step, hscope, hscope', outsideStep, hfamily]
    cases s.family with
    | brace => exact Brace.outsideStep_carry h s at_ hne
    | indent => exact Indent.outsideStep_carry h s at_ hne
  | some c =>
    have hscope' : (t.scan s).scope = some (t.scope c) := by
      rw [Carry.scan, hscope, Option.map_some]
    simp only [step, hscope, hscope', insideStep, hfamily]
    cases s.family with
    | brace => exact Brace.insideStep_carry h s c at_ ls
    | indent => exact Indent.insideStep_carry h s c at_ hne

/-- The scan of the changed file records what the scan of the file records, moved down. -/
theorem itemsFrom_carry (ls : List Line) :
    (t.scan s).itemsFrom (at_ + t.down) (ls.map t.line) = t.items (s.itemsFrom at_ ls) := by
  -- by the number of lines that are left; a line that is read again is first read outside
  induction hlen : ls.length using Nat.strongRecOn generalizing s at_ ls with
  | ind len ih =>
    by_cases hnil : ls = []
    · subst hnil
      rw [List.map_nil, itemsFrom, itemsFrom, Carry.scan]
      cases s.scope with
      | none => rfl
      | some c => simp only [Option.map_some, Option.toList_some, Item.closed_carry h]; rfl
    · have hnil' : ls.map t.line ≠ [] := by simpa using hnil
      have hdone : ∀ {s s' : Scan} {items : List Item} {further : Nat},
          s.step at_ ls = .done s' items further →
          (t.scan s).itemsFrom (at_ + t.down) (ls.map t.line) = t.items (s.itemsFrom at_ ls) := by
        intro s s' items further hstep
        have hstep' := step_carry h s at_ hnil
        rw [hstep, Carry.step] at hstep'
        have hshort : (ls.drop (further + 1)).length < len := by
          have hpos := List.length_pos_iff.mpr hnil
          rw [List.length_drop]
          omega
        have hrest := ih _ hshort s' (at_ + further + 1) _ rfl
        rw [itemsFrom_of_done hnil hstep, itemsFrom_of_done hnil' hstep', t.items_append,
          ← hrest, List.map_drop]
        congr 2
        omega
      rcases s.step_cases at_ hnil with
        ⟨s', items, further, hstep, -⟩ | ⟨-, s', items, hstep, hnone⟩
      · exact hdone hstep
      · have hstep' := step_carry h s at_ hnil
        rw [hstep, Carry.step] at hstep'
        have hnone' : (t.scan s').scope = none := by rw [Carry.scan, hnone, Option.map_none]
        rw [itemsFrom_of_again hnil hstep hnone, itemsFrom_of_again hnil' hstep' hnone',
          t.items_append]
        congr 1
        rcases s'.step_cases at_ hnil with ⟨s'', more, further, hdone', -⟩ | ⟨hsome, -⟩
        · exact hdone hdone'
        · rw [hnone] at hsome
          cases hsome

end

end Scan

end CodeAtlas
