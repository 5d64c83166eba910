/-
Scans that differ in texts only.

The skeleton of what is recorded is its names, its lines and its line counts. Two states of the
brace family are alike if they stand at the same depth, in classes of the same skeleton and both
inside of a comment or both outside. Which comment it is, and what will be attached to the next
declaration, do not matter.

Two files may have different lines behind the one that is to be read. A call makes alike states
of alike states (`outsideStep_alike`, `insideStep_alike`) if that line is the same in both, what
it declares is the same and reaches as far, and the curly brackets of the lines that are done with
it balance alike.
-/
import CodeAtlas.Proofs.Scan.Comment
import Mathlib.Data.Option.Basic

set_option autoImplicit false

namespace CodeAtlas

/-! ## Skeletons -/

/-- Its name, its line and its line count. -/
def FunctionRecord.skeleton (f : FunctionRecord) : String × Nat × Nat :=
  (f.name, f.line, f.lineCount)

def ClassRecord.skeleton (c : ClassRecord) :
    (String × Nat × Nat) × List (String × Nat × Nat) × List String :=
  ((c.name, c.line, c.lineCount), c.methods.map (·.skeleton), c.properties.map (·.name))

def InterfaceRecord.skeleton (i : InterfaceRecord) :
    (String × Nat) × List (String × Nat × Nat) × List String :=
  ((i.name, i.line), i.methods.map (·.skeleton), i.properties.map (·.name))

def TypeRecord.skeleton (t : TypeRecord) : String × Nat := (t.name, t.line)

def ConstantRecord.skeleton (c : ConstantRecord) : String × Nat := (c.name, c.line)

/-- What is left of an item where its texts are left out. -/
inductive Skeleton where
  | function (skeleton : String × Nat × Nat)
  | classItem (skeleton : (String × Nat × Nat) × List (String × Nat × Nat) × List String)
  | interface (skeleton : (String × Nat) × List (String × Nat × Nat) × List String)
  | type (skeleton : String × Nat)
  | constant (skeleton : String × Nat)
  | importItem (r : ImportRecord)
  | exportItem (r : ExportRecord)
  deriving DecidableEq

def Item.skeleton : Item → Skeleton
  | .function r => .function r.skeleton
  | .classItem r => .classItem r.skeleton
  | .interface r => .interface r.skeleton
  | .type r => .type r.skeleton
  | .constant r => .constant r.skeleton
  | .importItem r => .importItem r
  | .exportItem r => .exportItem r

/-! ## Alike states -/

/-- Is the scan inside of a comment? -/
def Scan.inside (s : Scan) : Bool := s.isInside false || s.isInside true

structure ClassScope.Alike (c c' : ClassScope) : Prop where
  start : c.start = c'.start
  stop : c.stop = c'.stop
  depth : c.depth = c'.depth
  skeleton : c.record.skeleton = c'.record.skeleton

/-- A state of the brace family that is inside of at most one comment. -/
structure Scan.IsBrace (s : Scan) : Prop where
  family : s.family = .brace
  apart : s.isInside false = true → s.isInside true = false

structure Scan.Alike (s s' : Scan) : Prop where
  left : s.IsBrace
  right : s'.IsBrace
  depth : s.depth = s'.depth
  inside : s.inside = s'.inside
  scope : Option.Rel ClassScope.Alike s.scope s'.scope

inductive Step.Alike : Step → Step → Prop where
  | done {s s' : Scan} {items items' : List Item} (further : Nat) : s.Alike s' →
      items.map Item.skeleton = items'.map Item.skeleton →
      Step.Alike (.done s items further) (.done s' items' further)

namespace Brace

variable {s s' : Scan} {t t' : Line} {ls ls' : List Line} {at_ : Nat}

/-! ## Comment lines -/

/-- Behind a comment line the state is inside of a comment if the line does not end it. -/
structure Passed (s : Scan) (t : Line) (s' : Scan) : Prop where
  isBrace : s'.IsBrace
  inside : s'.inside = !DocBuffer.closes t
  scope : s'.scope = s.scope
  depth : s'.depth = s.depth

theorem passed_of_commentLine? (hs : s.IsBrace) (h : commentLine? s t = some s')
    (hmark : s.inside = true ∨ Text.starts "/*" t = true) : Passed s t s' := by
  obtain ⟨hsame, hscope, hdepth⟩ := commentLine?_frame h
  have hcase := commentLine?_cases h
  refine ⟨⟨hsame.family.trans hs.family, (hcase.isInside hs.apart).1⟩, ?_, hscope, hdepth⟩
  simp only [Scan.inside, Scan.isInside, Bool.false_eq_true, if_false, if_true] at hmark ⊢
  have hapart := hs.apart
  simp only [Scan.isInside, Bool.false_eq_true, if_false, if_true] at hapart
  cases hcase with
  | insideDoc hopen =>
    -- the two flags are never set together
    have hnone : s.inComment = false := by
      by_contra hcomment
      rw [hapart (Bool.eq_true_of_not_eq_false hcomment)] at hopen
      cases hopen
    simp [Scan.withPending, DocBuffer.push, hopen, hnone]
  | inside hopen => simp [hopen]
  | beginsDoc hopen hcomment => simp [Scan.withPending, DocBuffer.start, hcomment]
  | begins hopen => simp [hopen]
  | slashes hopen hcomment hslashes =>
    -- the line neither stands in a comment nor begins one
    rw [hopen, hcomment, not_starts_comment_of_slashes hslashes] at hmark
    simp at hmark

/-- Inside of a comment, and where one begins, a line is a comment line. -/
theorem exists_commentLine? (s : Scan) (t : Line)
    (hmark : s.inside = true ∨ Text.starts "/*" t = true) : ∃ s', commentLine? s t = some s' := by
  cases hline : commentLine? s t with
  | some s' => exact ⟨s', rfl⟩
  | none =>
    obtain ⟨hclosed, hstarts, -⟩ := commentLine?_eq_none_iff.mp hline
    simp [Scan.inside, Scan.isInside, hclosed.1, hclosed.2, hstarts] at hmark

/-- Of two lines that both stand in a comment, or both begin one, and of one line read twice. -/
theorem commentLine?_alike (h : s.Alike s') (hcloses : DocBuffer.closes t = DocBuffer.closes t')
    (hmark : t = t' ∨ s.inside = true ∨
      (Text.starts "/*" t = true ∧ Text.starts "/*" t' = true)) :
    Option.Rel Scan.Alike (commentLine? s t) (commentLine? s' t') := by
  by_cases hcomment : s.inside = true ∨ (Text.starts "/*" t = true ∧ Text.starts "/*" t' = true)
  · have hleft : s.inside = true ∨ Text.starts "/*" t = true := hcomment.imp_right And.left
    have hright : s'.inside = true ∨ Text.starts "/*" t' = true :=
      hcomment.imp (h.inside ▸ ·) And.right
    obtain ⟨s₁, hs₁⟩ := exists_commentLine? s t hleft
    obtain ⟨s₂, hs₂⟩ := exists_commentLine? s' t' hright
    have hp₁ := passed_of_commentLine? h.left hs₁ hleft
    have hp₂ := passed_of_commentLine? h.right hs₂ hright
    rw [hs₁, hs₂]
    exact .some {
      left := hp₁.isBrace
      right := hp₂.isBrace
      depth := by rw [hp₁.depth, hp₂.depth, h.depth]
      inside := by rw [hp₁.inside, hp₂.inside, hcloses]
      scope := by rw [hp₁.scope, hp₂.scope]; exact h.scope }
  · -- outside of comments only two slashes are left
    obtain rfl : t = t' := hmark.resolve_right hcomment
    have hout : s.inside = false := Bool.eq_false_iff.mpr fun hin => hcomment (.inl hin)
    have hstarts : Text.starts "/*" t = false :=
      Bool.eq_false_iff.mpr fun hst => hcomment (.inr ⟨hst, hst⟩)
    have hslashes (s : Scan) (hs : s.inside = false) :
        commentLine? s t = if Text.starts "//" t = true then some s else none :=
      commentLine?_eq_of_closed (Bool.or_eq_false_iff.mp hs).symm hstarts
    rw [hslashes s hout, hslashes s' (h.inside ▸ hout)]
    split
    · exact .some h
    · exact .none

/-- In front of a line that is no comment line both scans are outside of comments. -/
theorem closed_of_commentLine? (h : s.Alike s') (hcode : commentLine? s t = none) :
    s.inside = false ∧ s.pending.doc.isOpen = false ∧ s'.pending.doc.isOpen = false := by
  have hout : s.inside = false := by simp [Scan.inside, not_isInside_of_commentLine? hcode]
  have hout' : s'.inside = false := h.inside ▸ hout
  rw [Scan.inside, Bool.or_eq_false_iff] at hout'
  exact ⟨hout, not_isInside_of_commentLine? hcode true, hout'.2⟩

/-! ## Lines that are read alike -/

/-- How far what is declared on the first line reaches, outside classes. -/
def outsideExtent (ls : List Line) : Nat :=
  match firstHit outside ls with
  | some (_, .function head) => bodyExtent head ls
  | some (_, .classHead _) => braceExtent ls
  | some (_, .interface _) => braceExtent ls
  | some (_, .type _) => if 0 < braceDelta (ls.headD []) then braceExtent ls else 0
  | _ => 0

/-- How far a method on the first line reaches, in a class that does not end. -/
def insideExtent (ls : List Line) : Nat :=
  match firstHit inside ls with
  | some (_, .method head) => blockExtent head.further ls
  | _ => 0

/-- The first lines declare the same, and it reaches as far. -/
structure ReadAlike (ls ls' : List Line) : Prop where
  outside : firstHit outside ls = firstHit outside ls'
  inside : firstHit inside ls = firstHit inside ls'
  outsideExtent : outsideExtent ls = outsideExtent ls'
  insideExtent : insideExtent ls = insideExtent ls'

instance (ls ls' : List Line) : Decidable (ReadAlike ls ls') :=
  decidable_of_iff (firstHit Brace.outside ls = firstHit Brace.outside ls' ∧
      firstHit Brace.inside ls = firstHit Brace.inside ls' ∧
      Brace.outsideExtent ls = Brace.outsideExtent ls' ∧
      Brace.insideExtent ls = Brace.insideExtent ls')
    ⟨fun ⟨hout, hin, hfar, hmethod⟩ => ⟨hout, hin, hfar, hmethod⟩,
      fun h => ⟨h.outside, h.inside, h.outsideExtent, h.insideExtent⟩⟩

theorem ReadAlike.refl (ls : List Line) : ReadAlike ls ls := ⟨rfl, rfl, rfl, rfl⟩

/-- The lines that are done have the same balance of curly brackets. -/
def Balanced (ls ls' : List Line) (further : Nat) : Prop :=
  netDelta (window further ls) = netDelta (window further ls')

/-- What holds of the number of further lines that the call does. -/
def Does (P : Nat → Prop) : Step → Prop
  | .done _ _ further => P further
  | .again _ _ => True

/-! ## Outside classes -/

theorem IsBrace.withPending (h : s.IsBrace) (hout : s.inside = false) {p : Pending}
    (hp : p.doc.isOpen = false) : (s.withPending p).IsBrace ∧ (s.withPending p).inside = false := by
  simp only [Scan.inside, Scan.isInside, Bool.false_eq_true, if_false, if_true,
    Bool.or_eq_false_iff] at hout
  refine ⟨⟨h.family, fun _ => hp⟩, ?_⟩
  simp [Scan.inside, Scan.isInside, Scan.withPending, hp, hout.1]

/-- Outside of comments, what is pending may be replaced. -/
theorem alike_withPending (h : s.Alike s') (hout : s.inside = false) {p p' : Pending}
    (hp : p.doc.isOpen = false) (hp' : p'.doc.isOpen = false) :
    (s.withPending p).Alike (s'.withPending p') := by
  obtain ⟨hleft, hin⟩ := IsBrace.withPending h.left hout hp
  obtain ⟨hright, hin'⟩ := IsBrace.withPending h.right (h.inside ▸ hout) hp'
  exact {
    left := hleft
    right := hright
    depth := h.depth
    inside := hin.trans hin'.symm
    scope := h.scope }

theorem alike_withScope (h : s.Alike s') {c c' : Option ClassScope}
    (hc : Option.Rel ClassScope.Alike c c') :
    ({ s with scope := c } : Scan).Alike { s' with scope := c' } where
  left := ⟨h.left.family, h.left.apart⟩
  right := ⟨h.right.family, h.right.apart⟩
  depth := h.depth
  inside := h.inside
  scope := hc

theorem skip_alike (h : s.Alike s') {items items' : List Item}
    (hitems : items.map Item.skeleton = items'.map Item.skeleton) {further : Nat}
    (hbalance : Balanced ls ls' further) :
    Step.Alike (skip s items further ls) (skip s' items' further ls') := by
  refine .done further ?_ hitems
  exact {
    left := ⟨h.left.family, h.left.apart⟩
    right := ⟨h.right.family, h.right.apart⟩
    depth := by rw [h.depth, hbalance]
    inside := h.inside
    scope := h.scope }

theorem closed_alike {c c' : ClassScope} (h : c.Alike c') :
    (Item.closed c).skeleton = (Item.closed c').skeleton := by
  have hextent : c.extent = c'.extent := by rw [ClassScope.extent, h.start, h.stop]; rfl
  have hskeleton := h.skeleton
  simp only [ClassRecord.skeleton, Prod.mk.injEq] at hskeleton
  simp only [Item.closed, Item.skeleton, ClassRecord.skeleton, ClassScope.finish, hextent,
    hskeleton.1.1, hskeleton.1.2.1, hskeleton.2.1, hskeleton.2.2]

theorem openClass_alike (h : s.Alike s') (hfirst : ls.headD [] = ls'.headD [])
    (hextent : braceExtent ls = braceExtent ls') (head : ClassHead) (at_ : Nat) (doc doc' : Doc)
    (decorators decorators' : List String) :
    Step.Alike (openClass s head at_ ls doc decorators)
      (openClass s' head at_ ls' doc' decorators') := by
  have hopened : (openedScope s head at_ ls doc decorators).Alike
      (openedScope s' head at_ ls' doc' decorators') := by
    refine ⟨rfl, ?_, ?_, rfl⟩
    · simp only [openedScope, hextent]
    · simp only [openedScope, hfirst]
  rw [openClass_eq, openClass_eq, extent_openedScope, extent_openedScope, hextent]
  split
  · exact .done 0 h (by simp only [List.map_cons, List.map_nil, closed_alike hopened])
  · exact .done 0 (alike_withScope h (.some hopened)) rfl

theorem record_alike (h : s.Alike s') (hout : s.inside = false)
    (hfirst : ls.headD [] = ls'.headD []) (hread : ReadAlike ls ls') {name : String} {c : Construct}
    (hit : firstHit outside ls = some (name, c)) (at_ : Nat)
    (hbalance : Does (Balanced ls ls') (record s c at_ ls)) :
    Step.Alike (record s c at_ ls) (record s' c at_ ls') := by
  -- what is recorded differs in its doc alone, and a skeleton has none; how far it reaches is read
  -- alike
  have hforget : s.forget.Alike s'.forget := alike_withPending h hout rfl rfl
  have hextent := hread.outsideExtent
  simp only [outsideExtent, ← hread.outside, hit] at hextent
  cases c with
  | imports rs => exact skip_alike hforget rfl hbalance
  | function head =>
    simp only [record, Construct.shift, ← hextent]
    refine skip_alike hforget ?_ hbalance
    rfl
  | method head => exact skip_alike hforget rfl hbalance
  | classHead head => exact openClass_alike hforget hfirst hextent head at_ _ _ _ _
  | property p => exact skip_alike hforget rfl hbalance
  | interface r =>
    simp only [record, Construct.shift, ← hextent]
    refine skip_alike hforget ?_ hbalance
    simp [Item.skeleton, InterfaceRecord.skeleton, FunctionRecord.skeleton]
  | type r =>
    simp only [record, Construct.shift, ← hextent]
    refine skip_alike hforget ?_ hbalance
    rfl
  | constant r =>
    refine skip_alike hforget ?_ hbalance
    rfl
  | decorator d => exact skip_alike hforget rfl hbalance

theorem does_withItems {P : Nat → Prop} {items : List Item} {step : Step}
    (h : Does P (withItems items step)) : Does P step := by
  cases step <;> exact h

theorem withItems_alike {step step' : Step} (h : Step.Alike step step') (items : List Item) :
    Step.Alike (withItems items step) (withItems items step') := by
  cases h with
  | done further hs hitems =>
    exact .done further hs (by rw [List.map_append, List.map_append, hitems])

theorem outsideStep_alike (h : s.Alike s') (hfirst : ls.headD [] = ls'.headD [])
    (hread : ReadAlike ls ls') (at_ : Nat)
    (hbalance : Does (Balanced ls ls') (outsideStep s at_ ls)) :
    Step.Alike (outsideStep s at_ ls) (outsideStep s' at_ ls') := by
  have ht : firstTrimmed ls = firstTrimmed ls' := congrArg Text.trim hfirst
  have hcomment := commentLine?_alike h (congrArg DocBuffer.closes ht) (.inl ht)
  rw [← ht] at hcomment
  unfold outsideStep at hbalance ⊢
  -- the same tests are made of both, so that one case split serves both handlers
  simp only [← ht, ← hread.outside, ← h.depth] at hbalance ⊢
  generalize hleft : commentLine? s (firstTrimmed ls) = left at hcomment hbalance ⊢
  generalize commentLine? s' (firstTrimmed ls) = right at hcomment ⊢
  cases hcomment with
  | some hs => exact .done 0 hs rfl
  | none =>
    obtain ⟨hout, hdoc, hdoc'⟩ := closed_of_commentLine? h hleft
    dsimp only at hbalance ⊢
    revert hbalance
    split
    case isTrue => exact fun _ => .done 0 (alike_withPending h hout rfl rfl) rfl
    case isFalse =>
      split
      case isTrue =>
        exact fun hbalance => skip_alike (alike_withPending h hout rfl rfl) rfl hbalance
      case isFalse =>
        split
        case h_1 d hd =>
          intro hbalance
          refine skip_alike (alike_withPending h hout ?_ ?_) rfl hbalance
          · exact hdoc
          · exact hdoc'
        case h_2 =>
          intro hbalance
          have hbalance := does_withItems hbalance
          refine withItems_alike ?_ _
          revert hbalance
          split
          case h_1 name c hit => exact record_alike h hout hfirst hread hit at_
          case h_2 =>
            exact fun hbalance => skip_alike (alike_withPending h hout rfl rfl) rfl hbalance

/-! ## Inside a class -/

theorem deepen_alike {c c' : ClassScope} (hc : c.Alike c') {further : Nat}
    (hbalance : Balanced ls ls' further) :
    (deepen c further ls).Alike (deepen c' further ls') where
  start := hc.start
  stop := hc.stop
  depth := by
    rw [deepen_depth, deepen_depth, hc.depth, hbalance]
  skeleton := hc.skeleton

theorem addMethod_alike {c c' : ClassScope} (hc : c.Alike c') {f f' : FunctionRecord}
    (hf : f.skeleton = f'.skeleton) : (c.addMethod f).Alike (c'.addMethod f') where
  start := hc.start
  stop := hc.stop
  depth := hc.depth
  skeleton := by
    have hskeleton := hc.skeleton
    simp only [ClassRecord.skeleton, Prod.mk.injEq] at hskeleton
    simp only [ClassScope.addMethod, ClassRecord.skeleton, List.map_append, List.map_cons,
      List.map_nil, hf, hskeleton.1.1, hskeleton.1.2.1, hskeleton.1.2.2, hskeleton.2.1,
      hskeleton.2.2]

/-- A property is added to both classes or to neither: its name decides. -/
theorem addProperty_alike {c c' : ClassScope} (hc : c.Alike c') {p p' : Property}
    (hp : p.name = p'.name) : (c.addProperty p).Alike (c'.addProperty p') := by
  have hskeleton := hc.skeleton
  simp only [ClassRecord.skeleton, Prod.mk.injEq] at hskeleton
  have hthere : (c.record.properties.any (·.name == p.name)) =
      c'.record.properties.any (·.name == p'.name) := by
    have hnames (ps : List Property) (name : String) :
        ps.any (·.name == name) = (ps.map (·.name)).any (· == name) := by
      rw [List.any_map]
      rfl
    rw [hnames, hnames, hskeleton.2.2, hp]
  unfold ClassScope.addProperty
  rw [hthere]
  split
  · exact hc
  · refine ⟨hc.start, hc.stop, hc.depth, ?_⟩
    simp only [ClassRecord.skeleton, List.map_append, List.map_cons, List.map_nil, hp,
      hskeleton.1.1, hskeleton.1.2.1, hskeleton.1.2.2, hskeleton.2.1, hskeleton.2.2]

/-- The states and the classes behind a line of a class are alike, and as many lines are done. -/
structure LineAlike (line line' : Scan × ClassScope × Nat) : Prop where
  scan : line.1.Alike line'.1
  scope : line.2.1.Alike line'.2.1
  further : line.2.2 = line'.2.2

theorem insideLine_alike (h : s.Alike s') {c c' : ClassScope} (hc : c.Alike c')
    (hfirst : ls.headD [] = ls'.headD []) (hread : ReadAlike ls ls') (at_ : Nat)
    (hbalance : Balanced ls ls' (insideLine s c at_ ls).2.2) :
    LineAlike (insideLine s c at_ ls) (insideLine s' c' at_ ls') := by
  have ht : firstTrimmed ls = firstTrimmed ls' := congrArg Text.trim hfirst
  have hcomment := commentLine?_alike h (congrArg DocBuffer.closes ht) (.inl ht)
  rw [← ht] at hcomment
  unfold insideLine at hbalance ⊢
  -- as outside classes, one case split serves both
  simp only [← ht, ← hread.inside, ← hc.depth, ← hc.stop] at hbalance ⊢
  revert hbalance
  split
  case isTrue => exact fun _ => ⟨h, hc, rfl⟩
  case isFalse =>
    generalize hleft : commentLine? s (firstTrimmed ls) = left at hcomment ⊢
    generalize commentLine? s' (firstTrimmed ls) = right at hcomment ⊢
    cases hcomment with
    | some hs => exact fun _ => ⟨hs, hc, rfl⟩
    | none =>
      obtain ⟨hout, hdoc, hdoc'⟩ := closed_of_commentLine? h hleft
      have hforget : s.forget.Alike s'.forget := alike_withPending h hout rfl rfl
      dsimp only
      split
      case isTrue => exact fun _ => ⟨alike_withPending h hout rfl rfl, hc, rfl⟩
      case isFalse =>
        split
        case isTrue =>
          exact fun hbalance => ⟨alike_withPending h hout rfl rfl, deepen_alike hc hbalance, rfl⟩
        case isFalse =>
          split
          case h_1 d hd =>
            intro hbalance
            refine ⟨alike_withPending h hout ?_ ?_, deepen_alike hc hbalance, rfl⟩
            · exact hdoc
            · exact hdoc'
          case h_2 =>
            split
            case h_1 name head hit =>
              have hextent := hread.insideExtent
              simp only [insideExtent, ← hread.inside, hit] at hextent
              rw [← hextent]
              intro hbalance
              refine ⟨hforget, addMethod_alike (deepen_alike hc hbalance) ?_, rfl⟩
              rfl
            case h_2 name p hit =>
              intro hbalance
              refine ⟨hforget, deepen_alike (addProperty_alike hc ?_) hbalance, rfl⟩
              rfl
            case h_3 => exact fun hbalance => ⟨hforget, deepen_alike hc hbalance, rfl⟩

/-- Behind the line the class is recorded in both scans or goes on in both. -/
theorem endLine_alike {line line' : Scan × ClassScope × Nat} (h : LineAlike line line')
    (at_ : Nat) :
    Step.Alike
      (if line.2.1.stop < at_ + line.2.2 + 1 then
        .done line.1.leaveClass [.closed line.2.1] line.2.2
      else .done { line.1 with scope := some line.2.1 } [] line.2.2)
      (if line'.2.1.stop < at_ + line'.2.2 + 1 then
        .done line'.1.leaveClass [.closed line'.2.1] line'.2.2
      else .done { line'.1 with scope := some line'.2.1 } [] line'.2.2) := by
  rw [← h.further, ← h.scope.stop]
  split
  · exact .done _ (alike_withScope h.scan .none)
      (by simp only [List.map_cons, List.map_nil, closed_alike h.scope])
  · exact .done _ (alike_withScope h.scan (.some h.scope)) rfl

theorem insideStep_alike (h : s.Alike s') {c c' : ClassScope} (hc : c.Alike c')
    (hfirst : ls.headD [] = ls'.headD []) (hread : ReadAlike ls ls') (at_ : Nat)
    (hbalance : Does (Balanced ls ls') (insideStep s c at_ ls)) :
    Step.Alike (insideStep s c at_ ls) (insideStep s' c' at_ ls') := by
  rw [insideStep_eq] at hbalance ⊢
  rw [insideStep_eq]
  refine endLine_alike (insideLine_alike h hc hfirst hread at_ ?_) at_
  split at hbalance <;> exact hbalance

end Brace

end CodeAtlas
