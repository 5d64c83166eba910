/-
What a header declares.

A recogniser looks at the lines from the current one to the end of the file and
answers with one construct. It does not know where in the file it stands: a line
number in its answer counts from the current line, which is line one, and `shift`
moves the answer to its place.
-/
import CodeAtlas.Outline.Record
import CodeAtlas.Pattern.Search

set_option autoImplicit false

namespace CodeAtlas

/-- How the body of a function ends. -/
inductive BodyShape where
  /-- with its curly brackets, or where the indentation ends -/
  | block
  /-- with the expression behind the arrow -/
  | expression
  deriving DecidableEq, Repr

/-- The header of a function or a method; `further` counts the lines that it takes
after the first one. -/
structure FunctionHead where
  name : String
  kind : FunctionKind
  params : List Parameter
  returnType : Option String := none
  exported : Bool := false
  defaultExport : Bool := false
  visibility : Option Visibility := none
  isStatic : Bool := false
  isAbstract : Bool := false
  further : Nat
  body : BodyShape := .block
  deriving DecidableEq, Repr

structure ClassHead where
  name : String
  base : Option String
  interfaces : List String
  isAbstract : Bool
  exported : Bool
  defaultExport : Bool
  deriving DecidableEq, Repr

/-- What one header declares. -/
inductive Construct where
  | imports (records : List ImportRecord)
  | function (head : FunctionHead)
  | method (head : FunctionHead)
  | classHead (head : ClassHead)
  | property (record : Property)
  | interface (record : InterfaceRecord)
  | type (record : TypeRecord)
  | constant (record : ConstantRecord)
  | decorator (text : String)
  deriving DecidableEq, Repr

/-! ## Placing an answer -/

def ImportRecord.shift (n : Nat) (r : ImportRecord) : ImportRecord := { r with line := r.line + n }

def FunctionRecord.shift (n : Nat) (r : FunctionRecord) : FunctionRecord :=
  { r with line := r.line + n }

def ClassRecord.shift (n : Nat) (r : ClassRecord) : ClassRecord :=
  { r with line := r.line + n, methods := r.methods.map (·.shift n) }

def InterfaceRecord.shift (n : Nat) (r : InterfaceRecord) : InterfaceRecord :=
  { r with line := r.line + n, methods := r.methods.map (·.shift n) }

def TypeRecord.shift (n : Nat) (r : TypeRecord) : TypeRecord := { r with line := r.line + n }

def ConstantRecord.shift (n : Nat) (r : ConstantRecord) : ConstantRecord :=
  { r with line := r.line + n }

def ExportRecord.shift (n : Nat) (r : ExportRecord) : ExportRecord := { r with line := r.line + n }

/-- The construct with its line numbers moved down by `n`. -/
def Construct.shift (n : Nat) : Construct → Construct
  | imports rs => imports (rs.map (·.shift n))
  | interface r => interface (r.shift n)
  | type r => type (r.shift n)
  | constant r => constant (r.shift n)
  | c => c

/-! ## Recognisers -/

/-- Looks at the lines from the current one on. -/
abbrev Recogniser := List Line → Option Construct

/-- The first line without the blanks at both ends. -/
def firstTrimmed (ls : List Line) : List Char := Text.trim (ls.headD [])

/-- The first recogniser of the table that accepts, by name, and its answer. -/
def firstHit (table : List (String × Recogniser)) (ls : List Line) : Option (String × Construct) :=
  table.findSome? fun (name, recognise) => (recognise ls).map fun c => (name, c)

/-- The text as it is kept in records. -/
def textOf (t : List Char) : String := String.ofList t

/-- The text without the blanks at both ends, as it is kept in records. -/
def trimmedText (t : List Char) : String := String.ofList (Text.trim t)

def nonempty? (t : List Char) : Option String := if t.isEmpty then none else some (textOf t)

end CodeAtlas
