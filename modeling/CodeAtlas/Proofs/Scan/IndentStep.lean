/-
One call of a handler of the indentation family.

As for the brace family, everything that a call can do is said once: `OutsideCase` for a
line outside classes and `InsideCase` for a line of a class. The one case that the other
family does not have is a line that ends the class and is to be read again.
-/
import CodeAtlas.Proofs.Header.Local

set_option autoImplicit false

namespace CodeAtlas.Indent

/-! ## Outside classes -/

/-- The class that a header opens: it reaches over its docstring so far. -/
def openedScope (s : Scan) (head : ClassHead) (at_ : Nat) (ls : List Line) (doc : Doc)
    (further : Nat) : ClassScope :=
  { record := classRecord s.path head at_ doc s.pending.decorators, text := ls, start := at_,
    stop := at_ + further, indent := Text.indentation (ls.headD []) }

/-- What a call outside classes can do. -/
inductive OutsideCase (s : Scan) (at_ : Nat) (ls : List Line) : Step → Prop where
  | silent : saysNothing (firstTrimmed ls) = true → OutsideCase s at_ ls (.done s [] 0)
  | docstring {d : Docstring} : Docstring.at? ls = some d →
      OutsideCase s at_ ls (.done s.forget [] d.further)
  | exports : Docstring.at? ls = none → Text.starts "__all__" (firstTrimmed ls) = true →
      OutsideCase s at_ ls
        (.done s.forget
          ((exportsOf (joinBrackets ls).text).map fun r => .exportItem (r.shift at_))
          (joinBrackets ls).further)
  | decorator {name d : String} : firstHit outside ls = some (name, .decorator d) →
      OutsideCase s at_ ls (.done (s.withPending (s.pending.decorate d)) [] 0)
  | imports {name : String} {rs : List ImportRecord} :
      firstHit outside ls = some (name, .imports rs) →
      OutsideCase s at_ ls
        (.done s.forget ((rs.map (·.shift at_)).map .importItem) (joinBrackets ls).further)
  | classHead {name : String} {head : ClassHead} {doc : Doc} {further : Nat} :
      firstHit outside ls = some (name, .classHead head) →
      (Docstring.within? (Text.indentation (ls.headD [])) (ls.drop 1) = none ∧
          doc = {} ∧ further = 0 ∨
        ∃ d, Docstring.within? (Text.indentation (ls.headD [])) (ls.drop 1) = some d ∧
          doc = d.doc ∧ further = d.further + 1) →
      OutsideCase s at_ ls
        (.done { s with scope := some (openedScope s head at_ ls doc further),
                        pending := s.pending.dropDecorators } [] further)
  | function {name : String} {head : FunctionHead} :
      firstHit outside ls = some (name, .function head) →
      OutsideCase s at_ ls
        (.done { s with pending := s.pending.dropDecorators }
          [.function (functionRecord s head at_ (bodyExtent head ls) ls (docOf head ls)
            s.pending.decorators)]
          (bodyExtent head ls))
  | constant {name : String} {r : ConstantRecord} :
      firstHit outside ls = some (name, .constant r) →
      OutsideCase s at_ ls
        (.done s.forget [.constant { r.shift at_ with location := s.path }] 0)
  | nothing : OutsideCase s at_ ls (.done s.forget [] 0)

theorem openClass_cases (s : Scan) (at_ : Nat) {ls : List Line} {name : String}
    {head : ClassHead} (hit : firstHit outside ls = some (name, .classHead head)) :
    OutsideCase s at_ ls (openClass s head at_ ls) := by
  unfold openClass
  cases hdoc : Docstring.within? (Text.indentation (ls.headD [])) (ls.drop 1) with
  | none =>
    simp only [hdoc]
    exact .classHead hit (.inl ⟨hdoc, rfl, rfl⟩)
  | some d =>
    simp only [hdoc]
    exact .classHead hit (.inr ⟨d, hdoc, rfl, rfl⟩)

theorem record_cases (s : Scan) (at_ : Nat) {ls : List Line} {name : String} {c : Construct}
    (hit : firstHit outside ls = some (name, c)) :
    OutsideCase s at_ ls (record s c at_ ls) := by
  cases c with
  | imports rs => exact .imports hit
  | function head => exact .function hit
  | method head => exact .nothing
  | classHead head => exact openClass_cases s at_ hit
  | property p => exact .nothing
  | interface r => exact .nothing
  | type r => exact .nothing
  | constant r => exact .constant hit
  | decorator d => exact .decorator hit

/-- The cases are all that a call outside classes can do. -/
theorem outsideStep_cases (s : Scan) (at_ : Nat) (ls : List Line) :
    OutsideCase s at_ ls (outsideStep s at_ ls) := by
  unfold outsideStep
  simp only
  split
  · rename_i hsilent
    exact .silent hsilent
  · split
    · rename_i d hd
      exact .docstring hd
    · rename_i hnone
      split
      · rename_i hall
        exact .exports hnone hall
      · split
        · rename_i name c hit
          exact record_cases s at_ hit
        · exact .nothing

/-- A call outside classes finishes its line, and no line behind the last one. -/
theorem OutsideCase.exists_done {s : Scan} {at_ : Nat} {ls : List Line} {step : Step}
    (h : OutsideCase s at_ ls step) (hne : ls ≠ []) :
    ∃ s' items further, step = .done s' items further ∧ further < ls.length := by
  have hpos : 0 < ls.length := List.length_pos_iff.mpr hne
  cases h with
  | docstring hd => exact ⟨_, _, _, rfl, Docstring.further_lt_of_at? hd⟩
  | exports => exact ⟨_, _, _, rfl, joinBrackets_further_lt hne⟩
  | imports => exact ⟨_, _, _, rfl, joinBrackets_further_lt hne⟩
  | classHead hit hdoc =>
    -- the docstring is looked for behind the header
    refine ⟨_, _, _, rfl, ?_⟩
    rcases hdoc with ⟨-, -, rfl⟩ | ⟨d, hd, -, rfl⟩
    · exact hpos
    · have hlt := Docstring.further_lt_of_within? hd
      rw [List.length_drop] at hlt
      omega
  | function hit =>
    have hhead := ((isLocal_of_outside hit).further_bounds rfl hne).2
    exact ⟨_, _, _, rfl, bodyExtent_lt hhead⟩
  | _ => exact ⟨_, _, _, rfl, hpos⟩

/-! ## Inside a class -/

/-- The class as it is when a method with the decorators comes to be added: an abstract
method makes it abstract, and the method has assigned properties. -/
def beforeMethod (c : ClassScope) (decorators : List String) (assigned : List Property) :
    ClassScope :=
  let abstracted := decorators.any fun d => Text.ends "abstractmethod" d.toList
  assigned.foldl ClassScope.addProperty
    { c with record := { c.record with isAbstract := c.record.isAbstract || abstracted } }

/-- The record of a function as a method of its class. -/
def asMethod (f : FunctionRecord) : FunctionRecord :=
  { f with kind := .method, exported := false,
           isStatic := f.decorators.any staticDecorators.contains }

/-- The properties that a method assigns to the object. -/
def assignedBy (head : FunctionHead) (ls : List Line) : List Property :=
  assignedProperties ((window (bodyExtent head ls) ls).drop (head.further + 1))

theorem addMethod_eq (s : Scan) (c : ClassScope) (head : FunctionHead) (at_ : Nat)
    (ls : List Line) :
    addMethod s c head at_ ls =
      ({ (beforeMethod c s.pending.decorators (assignedBy head ls)).addMethod
          (asMethod (functionRecord s head at_ (bodyExtent head ls) ls (docOf head ls)
            s.pending.decorators)) with
          stop := at_ + bodyExtent head ls }, bodyExtent head ls) := rfl

/-- What a call inside the class `c` can do. -/
inductive InsideCase (s : Scan) (c : ClassScope) (at_ : Nat) (ls : List Line) :
    Step → Prop where
  | silent : saysNothing (firstTrimmed ls) = true →
      InsideCase s c at_ ls (.done { s with scope := some c } [] 0)
  | closes : closesClass c.indent (ls.headD []) = true →
      InsideCase s c at_ ls (.again s.leaveClass [.closed c])
  | docstring {d : Docstring} : Docstring.at? ls = some d →
      InsideCase s c at_ ls
        (.done { s with scope := some { c with stop := at_ + d.further } } [] d.further)
  | decorator {name d : String} : firstHit inside ls = some (name, .decorator d) →
      InsideCase s c at_ ls
        (.done { s.withPending (s.pending.decorate d) with
          scope := some { c with stop := at_ } } [] 0)
  | classHead {name : String} {head : ClassHead} :
      firstHit inside ls = some (name, .classHead head) →
      saysNothing (firstTrimmed ls) = false → Docstring.at? ls = none →
      closesClass c.indent (ls.headD []) = false →
      InsideCase s c at_ ls (.again s.leaveClass [.closed { c with stop := at_ }])
  | function {name : String} {head : FunctionHead} :
      firstHit inside ls = some (name, .function head) →
      closesClass c.indent (ls.headD []) = false →
      InsideCase s c at_ ls
        (.done { s.withPending s.pending.dropDecorators with
          scope := some (addMethod s { c with stop := at_ } head at_ ls).1 } []
          (bodyExtent head ls))
  | property {name : String} {p : Property} : firstHit inside ls = some (name, .property p) →
      InsideCase s c at_ ls
        (.done { s.forget with
          scope := some (ClassScope.addProperty { c with stop := at_ } p) } [] 0)
  | nothing :
      InsideCase s c at_ ls (.done { s.forget with scope := some { c with stop := at_ } } [] 0)

/-- The cases are all that a call inside a class can do. -/
theorem insideStep_cases (s : Scan) (c : ClassScope) (at_ : Nat) (ls : List Line) :
    InsideCase s c at_ ls (insideStep s c at_ ls) := by
  unfold insideStep
  simp only
  -- the cases arise in the order in which the handler asks
  split
  · rename_i hsilent
    exact .silent hsilent
  · rename_i hspeaks
    split
    · rename_i hcloses
      exact .closes hcloses
    · rename_i hkeeps
      split
      · rename_i d hd
        exact .docstring hd
      · rename_i hnone
        split
        · rename_i hit
          exact .decorator hit
        · rename_i hit
          exact .classHead hit (Bool.eq_false_iff.mpr hspeaks) hnone (Bool.eq_false_iff.mpr hkeeps)
        · rename_i hit
          exact .function hit (Bool.eq_false_iff.mpr hkeeps)
        · rename_i hit
          exact .property hit
        · exact .nothing

/-- A call inside a class finishes its line and stays in the class, or leaves the class and
its line. -/
theorem InsideCase.done_or_again {s : Scan} {c : ClassScope} {at_ : Nat} {ls : List Line}
    {step : Step} (h : InsideCase s c at_ ls step) (hne : ls ≠ []) :
    (∃ s' items further, step = .done s' items further ∧ further < ls.length) ∨
      ∃ items, step = .again s.leaveClass items := by
  have hpos : 0 < ls.length := List.length_pos_iff.mpr hne
  cases h with
  | closes => exact .inr ⟨_, rfl⟩
  | classHead => exact .inr ⟨_, rfl⟩
  | docstring hd => exact .inl ⟨_, _, _, rfl, Docstring.further_lt_of_at? hd⟩
  | function hit =>
    have hhead := ((isLocal_of_inside hit).further_bounds rfl hne).2
    exact .inl ⟨_, _, _, rfl, bodyExtent_lt hhead⟩
  | _ => exact .inl ⟨_, _, _, rfl, hpos⟩

end CodeAtlas.Indent
