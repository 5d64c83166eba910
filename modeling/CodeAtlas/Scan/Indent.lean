/-
The scan of the indentation family.

A class lasts until a definition, a decorator or a constant stands no deeper than
its own line, or until another class begins inside it; that line is then read again
outside the class. The bodies of functions are taken whole.
-/
import CodeAtlas.Header.Indent.Class
import CodeAtlas.Scan.State

set_option autoImplicit false

namespace CodeAtlas.Indent

/-- Is the trimmed line blank or a comment? -/
def saysNothing (t : List Char) : Bool := t.isEmpty || t.head? = some '#'

/-- How far a function reaches, by the lines behind its header. -/
def bodyExtent (head : FunctionHead) (ls : List Line) : Nat :=
  head.further + indentExtent (Text.indentation (ls.headD [])) (ls.drop head.further)

/-- The doc comment at the start of a body. -/
def docOf (head : FunctionHead) (ls : List Line) : Doc :=
  let body := ls.drop (head.further + 1)
  ((Docstring.within? (Text.indentation (ls.headD [])) body).map (·.doc)).getD {}

/-! ## Outside classes -/

/-- Opens a class, behind its docstring. -/
def openClass (s : Scan) (head : ClassHead) (at_ : Nat) (ls : List Line) : Step :=
  let base := Text.indentation (ls.headD [])
  let (doc, further) := match Docstring.within? base (ls.drop 1) with
    | some d => (d.doc, d.further + 1)
    | none => ({}, 0)
  let scope : ClassScope :=
    { record := classRecord s.path head at_ doc s.pending.decorators, text := ls, start := at_,
      stop := at_ + further, indent := base }
  .done { s with scope := some scope, pending := s.pending.dropDecorators } [] further

/-- Records a construct that stands outside classes. -/
def record (s : Scan) (c : Construct) (at_ : Nat) (ls : List Line) : Step :=
  match c.shift at_ with
  | .decorator d => .done (s.withPending (s.pending.decorate d)) [] 0
  | .imports rs => .done s.forget (rs.map .importItem) (joinBrackets ls).further
  | .classHead head => openClass s head at_ ls
  | .function head =>
    let extent := bodyExtent head ls
    let f := functionRecord s head at_ extent ls (docOf head ls) s.pending.decorators
    .done { s with pending := s.pending.dropDecorators } [.function f] extent
  | .constant r => .done s.forget [.constant { r with location := s.path }] 0
  | .method _ | .property _ | .interface _ | .type _ => .done s.forget [] 0

/-- Handles a line outside classes, at index `at_`. -/
def outsideStep (s : Scan) (at_ : Nat) (ls : List Line) : Step :=
  let t := firstTrimmed ls
  if saysNothing t then .done s [] 0
  else
    match Docstring.at? ls with
    | some d => .done s.forget [] d.further
    | none =>
      if Text.starts "__all__" t then
        let statement := joinBrackets ls
        .done s.forget ((exportsOf statement.text).map fun r => .exportItem (r.shift at_))
          statement.further
      else
        match firstHit outside ls with
        | some (_, c) => record s c at_ ls
        | none => .done s.forget [] 0

/-! ## Inside a class -/

/-- The properties that a method assigns to the object, from the lines of its body. -/
def assignedProperties : List Line → List Property
  | [] => []
  | l :: ls =>
    match selfAssignment? (l :: ls) with
    | some (.property p) => p :: assignedProperties ls
    | _ => assignedProperties ls

/-- Decorators that make a method belong to the class. -/
def staticDecorators : List String := ["staticmethod", "classmethod"]

/-- The class with a method added, and the number of lines of the method behind its
first one. -/
def addMethod (s : Scan) (c : ClassScope) (head : FunctionHead) (at_ : Nat) (ls : List Line) :
    ClassScope × Nat :=
  let extent := bodyExtent head ls
  let decorators := s.pending.decorators
  let abstracted := decorators.any fun d => Text.ends "abstractmethod" d.toList
  let body := (window extent ls).drop (head.further + 1)
  let c := { c with record := { c.record with isAbstract := c.record.isAbstract || abstracted } }
  -- what the method assigns to the object are properties of the class
  let c := (assignedProperties body).foldl ClassScope.addProperty c
  let f := functionRecord s head at_ extent ls (docOf head ls) decorators
  let f := { f with kind := .method, exported := false,
                    isStatic := decorators.any staticDecorators.contains }
  ({ c.addMethod f with stop := at_ + extent }, extent)

/-- Handles a line of the class `c`, at index `at_`. -/
def insideStep (s : Scan) (c : ClassScope) (at_ : Nat) (ls : List Line) : Step :=
  let stay := fun (s : Scan) (c : ClassScope) (further : Nat) =>
    Step.done { s with scope := some c } [] further
  if saysNothing (firstTrimmed ls) then stay s c 0
  else if closesClass c.indent (ls.headD []) then .again s.leaveClass [.closed c]
  else
    match Docstring.at? ls with
    | some d => stay s { c with stop := at_ + d.further } d.further
    | none =>
      -- the class reaches at least to this line
      let seen := { c with stop := at_ }
      match firstHit inside ls with
      | some (_, .decorator d) => stay (s.withPending (s.pending.decorate d)) seen 0
      -- there are no classes inside classes: this one ends, and the line is read again
      | some (_, .classHead _) => .again s.leaveClass [.closed seen]
      | some (_, .function head) =>
        let (c, extent) := addMethod s seen head at_ ls
        stay (s.withPending s.pending.dropDecorators) c extent
      | some (_, .property p) => stay s.forget (seen.addProperty p) 0
      | _ => stay s.forget seen 0

end CodeAtlas.Indent
