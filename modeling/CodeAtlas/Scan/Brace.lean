/-
The scan of the brace family.

Outside classes a declaration counts only at depth zero, inside a class only at
depth one. The depth follows the curly brackets of the lines and never falls below
zero. Comment lines change nothing but the comment that is pending.
-/
import CodeAtlas.Header.Brace.Binding
import CodeAtlas.Header.Brace.Export
import CodeAtlas.Scan.State

set_option autoImplicit false

namespace CodeAtlas.Brace

/-! ## Extents of bodies -/

/-- How far a function with a block reaches whose header takes `further` lines more. -/
def blockExtent (further : Nat) (ls : List Line) : Nat :=
  -- a header without an opening bracket on its last line has no body
  if (braceCount ((ls.drop further).headD [])).opens = 0 then further
  else max (braceExtent ls) further

/-- How many of the lines go on with an expression on a line indented by `base`: those
indented deeper or beginning with a closing bracket, up to a semicolon. -/
def continuation (base limit : Nat) : List Line → Nat
  | [] => 0
  | l :: ls =>
    match limit with
    | 0 => 0
    | limit + 1 =>
      let closing := (Text.trimStart l).head?.any fun c => c = ')' || c = ']' || c = '}'
      if Text.isBlank l || (Text.indentation l ≤ base && !closing) then 0
      else if endsIn ';' l then 1
      else continuation base limit ls + 1

/-- How far a function with an expression reaches whose header takes `further` lines
more. -/
def expressionExtent (further : Nat) (ls : List Line) : Nat :=
  let base := Text.indentation (ls.headD [])
  if endsIn ';' ((ls.drop further).headD []) then further
  else further + continuation base maxLookahead (ls.drop (further + 1))

/-- How far a function reaches. -/
def bodyExtent (head : FunctionHead) (ls : List Line) : Nat :=
  match head.body with
  | .block => blockExtent head.further ls
  | .expression => expressionExtent head.further ls

/-! ## Comments -/

/-- The state behind a comment line; nothing for any other line. -/
def commentLine? (s : Scan) (t : List Char) : Option Scan :=
  if s.pending.doc.isOpen then
    some (s.withPending { s.pending with doc := s.pending.doc.push t })
  else if s.inComment then some { s with inComment := !DocBuffer.closes t }
  else if Text.starts "/**" t then
    some (s.withPending { s.pending with doc := DocBuffer.start t })
  else if Text.starts "/*" t then some { s with inComment := !DocBuffer.closes t }
  else if Text.starts "//" t then some s
  else none

/-! ## Outside classes -/

/-- Behind the line, which records the items, and `further` more of them, with their
brackets counted. -/
def skip (s : Scan) (items : List Item) (further : Nat) (ls : List Line) : Step :=
  .done { s with depth := max (s.depth + netDelta (window further ls)) 0 } items further

/-- Opens a class. -/
def openClass (s : Scan) (head : ClassHead) (at_ : Nat) (ls : List Line) (doc : Doc)
    (decorators : List String) : Step :=
  let line := ls.headD []
  let scope : ClassScope :=
    { record := classRecord s.path head at_ doc decorators, text := ls, start := at_,
      stop := at_ + braceExtent ls, depth := max (braceDelta line) 0,
      indent := Text.indentation line }
  -- a class that ends on its first line is closed at once
  if scope.extent = 0 then .done s [.closed scope] 0
  else .done { s with scope := some scope } [] 0

/-- Records a construct that stands outside classes, with what was pending. -/
def record (s : Scan) (c : Construct) (at_ : Nat) (ls : List Line) : Step :=
  let doc := s.pending.docNow
  let decorators := s.pending.decorators
  let s := s.forget
  match c.shift at_ with
  | .imports rs => skip s (rs.map .importItem) 0 ls
  -- the brackets of a class are counted by its own scope
  | .classHead head => openClass s head at_ ls doc decorators
  | .interface r =>
    let r := { r with description := doc.description, fullDoc := doc.full, location := s.path,
                      methods := r.methods.map fun m => { m with location := s.path } }
    skip s [.interface r] (braceExtent ls) ls
  | .type r =>
    let extent := if 0 < braceDelta (ls.headD []) then braceExtent ls else 0
    skip s [.type { r with description := doc.description, location := s.path }] extent ls
  | .function head =>
    let extent := bodyExtent head ls
    skip s [.function (functionRecord s head at_ extent ls doc decorators)] extent ls
  | .constant r =>
    skip s [.constant { r with description := doc.description, location := s.path }] 0 ls
  | .method _ | .property _ | .decorator _ => skip s [] 0 ls

/-- The step with more items in front of those that it records. -/
def withItems (items : List Item) : Step → Step
  | .done s more further => .done s (items ++ more) further
  | .again s more => .again s (items ++ more)

/-- Handles a line outside classes, at index `at_`. -/
def outsideStep (s : Scan) (at_ : Nat) (ls : List Line) : Step :=
  let t := firstTrimmed ls
  match commentLine? s t with
  | some s => .done s [] 0
  | none =>
    if t.isEmpty then .done (s.withPending s.pending.dropDoc) [] 0
    else if 0 < s.depth then skip (s.withPending s.pending.dropDoc) [] 0 ls
    else
      match t with
      | '@' :: d => skip (s.withPending (s.pending.decorate (trimmedText d))) [] 0 ls
      | _ =>
        -- an export is recorded whatever else the line declares
        withItems ((exportsOf t).map fun r => .exportItem (r.shift at_))
          (match firstHit outside ls with
            | some (_, c) => record s c at_ ls
            | none => skip s.forget [] 0 ls)

/-! ## Inside a class -/

/-- The scope with the brackets of the line and `further` more of them counted. -/
def deepen (c : ClassScope) (further : Nat) (ls : List Line) : ClassScope :=
  { c with depth := max (c.depth + netDelta (window further ls)) 0 }

/-- Handles a line of the class `c`, at index `at_`: the state, the class and the number
of further lines that are done. -/
def insideLine (s : Scan) (c : ClassScope) (at_ : Nat) (ls : List Line) :
    Scan × ClassScope × Nat :=
  -- the last line of a class holds no member
  if c.stop ≤ at_ then (s, c, 0)
  else
    let t := firstTrimmed ls
    match commentLine? s t with
    | some s => (s, c, 0)
    | none =>
      if t.isEmpty then (s.withPending s.pending.dropDoc, c, 0)
      else if c.depth ≠ 1 then (s.withPending s.pending.dropDoc, deepen c 0 ls, 0)
      else
        match t with
        | '@' :: d => (s.withPending (s.pending.decorate (trimmedText d)), deepen c 0 ls, 0)
        | _ =>
          let doc := s.pending.docNow
          match firstHit inside ls with
          | some (_, .method head) =>
            -- a method does not reach behind its class
            let extent := min (blockExtent head.further ls) (c.stop - at_)
            let f := functionRecord s head at_ extent ls doc s.pending.decorators
            (s.forget, (deepen c extent ls).addMethod f, extent)
          | some (_, .property p) =>
            (s.forget, deepen (c.addProperty { p with description := doc.description }) 0 ls, 0)
          | _ => (s.forget, deepen c 0 ls, 0)

/-- Handles a line of the class `c`, and closes the class behind its last line. -/
def insideStep (s : Scan) (c : ClassScope) (at_ : Nat) (ls : List Line) : Step :=
  let (s, c, further) := insideLine s c at_ ls
  if c.stop < at_ + further + 1 then .done s.leaveClass [.closed c] further
  else .done { s with scope := some c } [] further

end CodeAtlas.Brace
