/-
The state of a scan.

A file is read once, line by line, and each line may add items to the list of what is
recorded. What will be attached to the next declaration waits in `Pending`; and the
scan is either outside classes or inside one, whose record is being filled.
-/
import CodeAtlas.Analysis.Body
import CodeAtlas.Doc.Docstring
import CodeAtlas.Header.Construct

set_option autoImplicit false

namespace CodeAtlas

/-- What will be attached to the next declaration. -/
structure Pending where
  doc : DocBuffer := {}
  /-- the decorators that were read, the newest first -/
  back : List String := []
  deriving Repr, Inhabited

namespace Pending

/-- The doc comment, if it is complete, and no doc comment otherwise. -/
def docNow (p : Pending) : Doc := p.doc.doc?.getD {}

def dropDoc (p : Pending) : Pending := { p with doc := {} }

/-- The decorators in the order in which they were read. -/
def decorators (p : Pending) : List String := p.back.reverse

def decorate (p : Pending) (d : String) : Pending := { p with back := d :: p.back }

def dropDecorators (p : Pending) : Pending := { p with back := [] }

end Pending

/-- The class that is being filled. -/
structure ClassScope where
  record : ClassRecord
  /-- the lines of the file from the class line on -/
  text : List Line
  /-- the index of the class line -/
  start : Nat
  /-- brace family: the index of the closing line; indentation family: that of the last
  line seen -/
  stop : Nat
  /-- brace family: the depth behind the last line, counted from the class line -/
  depth : Int := 0
  /-- the indentation of the class line -/
  indent : Nat
  deriving Repr, Inhabited

namespace ClassScope

/-- The number of lines behind the class line that belong to the class. -/
def extent (s : ClassScope) : Nat := s.stop - s.start

/-- The record of the class, which ends with the scope's last line. -/
def finish (s : ClassScope) : ClassRecord :=
  { s.record with
    lineCount := s.extent + 1,
    designPattern := designPatternOf (window s.extent s.text) }

def addMethod (s : ClassScope) (f : FunctionRecord) : ClassScope :=
  { s with record := { s.record with methods := s.record.methods ++ [f] } }

/-- Adds a property, unless there is one of that name. -/
def addProperty (s : ClassScope) (p : Property) : ClassScope :=
  if s.record.properties.any (·.name == p.name) then s
  else { s with record := { s.record with properties := s.record.properties ++ [p] } }

end ClassScope

/-- Where the scan stands. -/
structure Scan where
  path : String
  family : Family
  scope : Option ClassScope := none
  pending : Pending := {}
  /-- brace family: the depth of curly brackets outside classes -/
  depth : Int := 0
  /-- is the scan inside a comment that is no doc comment? -/
  inComment : Bool := false
  deriving Repr, Inhabited

namespace Scan

def withPending (s : Scan) (p : Pending) : Scan := { s with pending := p }

def forget (s : Scan) : Scan := { s with pending := {} }

def leaveClass (s : Scan) : Scan := { s with scope := none }

end Scan

/-! ## Items -/

/-- What a scan records. -/
inductive Item where
  | function (r : FunctionRecord)
  | classItem (r : ClassRecord)
  | interface (r : InterfaceRecord)
  | type (r : TypeRecord)
  | constant (r : ConstantRecord)
  | importItem (r : ImportRecord)
  | exportItem (r : ExportRecord)
  deriving DecidableEq, Repr

namespace Item

/-- The record of a class that was closed. -/
def closed (c : ClassScope) : Item := classItem c.finish

def function? : Item → Option FunctionRecord
  | function r => some r
  | _ => none

def class? : Item → Option ClassRecord
  | classItem r => some r
  | _ => none

def interface? : Item → Option InterfaceRecord
  | interface r => some r
  | _ => none

def type? : Item → Option TypeRecord
  | type r => some r
  | _ => none

def constant? : Item → Option ConstantRecord
  | constant r => some r
  | _ => none

def import? : Item → Option ImportRecord
  | importItem r => some r
  | _ => none

def export? : Item → Option ExportRecord
  | exportItem r => some r
  | _ => none

end Item

/-- The outline that holds the items of each kind, in their order. -/
def Outline.ofItems (path : String) (family : Family) (items : List Item) : Outline :=
  { path, family,
    functions := items.filterMap Item.function?,
    classes := items.filterMap Item.class?,
    interfaces := items.filterMap Item.interface?,
    types := items.filterMap Item.type?,
    constants := items.filterMap Item.constant?,
    imports := items.filterMap Item.import?,
    exports := items.filterMap Item.export? }

/-! ## Steps -/

/-- What one handler makes of the current line. -/
inductive Step where
  /-- the line and `further` lines behind it are done -/
  | done (s : Scan) (items : List Item) (further : Nat)
  /-- the line ended the class and is to be read again outside of it -/
  | again (s : Scan) (items : List Item)
  deriving Inhabited

/-! ## Records from headers -/

/-- The record of a function whose header stands at index `at_` and which reaches over
`extent` further lines. -/
def functionRecord (s : Scan) (head : FunctionHead) (at_ extent : Nat) (ls : List Line) (doc : Doc)
    (decorators : List String) : FunctionRecord :=
  let a := analyseBody s.family (some head.name) (window extent ls)
  { name := head.name, kind := head.kind, params := head.params, returnType := head.returnType,
    description := doc.description, fullDoc := doc.full, location := s.path, line := at_ + 1,
    exported := head.exported, defaultExport := head.defaultExport,
    visibility := head.visibility, isStatic := head.isStatic, decorators,
    complexity := a.complexity, lineCount := extent + 1,
    dependencies := a.dependencies, businessLogic := a.businessLogic,
    errorHandling := a.errorHandling, dataFlow := a.dataFlow, performance := a.performance }

/-- The record of a class whose header stands at index `at_`, without its members. -/
def classRecord (path : String) (head : ClassHead) (at_ : Nat) (doc : Doc)
    (decorators : List String) : ClassRecord :=
  { name := head.name, description := doc.description, fullDoc := doc.full, location := path,
    line := at_ + 1, exported := head.exported, defaultExport := head.defaultExport,
    base := head.base, interfaces := head.interfaces, isAbstract := head.isAbstract, decorators }

end CodeAtlas
