/-
Reading values of fixed types from JSON.

A record is read from an object, where fields may be missing and unknown ones are
passed over, or from an array with the fields in their order, where the last ones may
be missing. A missing field has the default of the record; a field of the wrong type
is refused, and so is a known field that is given twice.
-/
import CodeAtlas.Json.Basic
import CodeAtlas.Outline.Tag

set_option autoImplicit false

namespace CodeAtlas.Json

/-- A reader of one type. -/
abbrev Decoder (α : Type) := Json → Option α

def text? : Decoder String
  | .str s => some s
  | _ => none

def bool? : Decoder Bool
  | .bool b => some b
  | _ => none

/-- A natural number up to `max`. -/
def natUpTo? (max : Nat) : Decoder Nat
  | .int (.ofNat n) => if n ≤ max then some n else none
  | _ => none

/-- A natural number of sixty-four bits. -/
def count? : Decoder Nat := natUpTo? (Nat.pow 2 64 - 1)

/-- A natural number of thirty-two bits. -/
def score? : Decoder Nat := natUpTo? (Nat.pow 2 32 - 1)

def list? {α : Type} (f : Decoder α) : Decoder (List α)
  | .arr items => items.mapM f
  | _ => none

def option? {α : Type} (f : Decoder α) : Decoder (Option α)
  | .null => some none
  | j => (f j).map some

def texts? : Decoder (List String) := list? text?

def textOption? : Decoder (Option String) := option? text?

/-- A tag, by its name or as an object with the name as its only key and a null. -/
def tag? {α : Type} [Tag α] : Decoder α
  | .str s => Tag.ofName? s
  | .obj [(s, .null)] => Tag.ofName? s
  | _ => none

/-! ## Records -/

/-- The fields of a record that are still to be read: an object, in which they are
looked up, or the rest of an array, whose items stand for them in order. -/
inductive Fields where
  | named (all : List (String × Json))
  | listed (items : List Json)

/-- Reads the fields of a record one after another. -/
abbrev FieldReader (α : Type) := StateT Fields Option α

/-- The next field: its default if it is missing. -/
def next {α : Type} (name : String) (f : Decoder α) (default : α) : FieldReader α := fun fields =>
  match fields with
  | .named all =>
    match all.filter (·.1 == name) with
    | [] => some (default, fields)
    | [(_, v)] => (f v).map fun a => (a, fields)
    | _ => none
  | .listed [] => some (default, .listed [])
  | .listed (v :: rest) => (f v).map fun a => (a, .listed rest)

/-- A record that is read field by field; nothing may be left of an array. -/
def record? {α : Type} (r : FieldReader α) : Decoder α := fun j =>
  match j with
  | .obj all => (r (.named all)).map (·.1)
  | .arr items =>
    match r (.listed items) with
    | some (a, .listed []) => some a
    | _ => none
  | _ => none

end CodeAtlas.Json
