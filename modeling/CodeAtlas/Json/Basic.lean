/-
JSON values.

An object is the list of its fields in the order in which they are written, and a
repeated field keeps its last value. A number is an integer if it is written as one
and fits into sixty-four bits, with or without a sign; any other number is a binary
floating-point number, kept by its bits.
-/

set_option autoImplicit false

namespace CodeAtlas

inductive Json where
  | null
  | bool (b : Bool)
  | int (n : Int)
  | float (bits : UInt64)
  | str (s : String)
  | arr (items : List Json)
  | obj (fields : List (String × Json))
  deriving Repr, Inhabited

namespace Json

def nat (n : Nat) : Json := .int n

def strs (xs : List String) : Json := .arr (xs.map .str)

/-- A value that may be absent. -/
def ofOption {α : Type} (f : α → Json) : Option α → Json
  | some a => f a
  | none => .null

/-- The last value of a field. -/
def field? (j : Json) (name : String) : Option Json :=
  match j with
  | .obj fields => (fields.reverse.find? (·.1 == name)).map (·.2)
  | _ => none

mutual

/-- The value with the repeated fields of all objects reduced to the last ones. -/
def settle : Json → Json
  | .arr items => .arr (settleItems items)
  | .obj fields => .obj (settleFields fields)
  | j => j

/-- The items, each settled. -/
def settleItems : List Json → List Json
  | [] => []
  | j :: js => settle j :: settleItems js

/-- The fields, each settled, without those that are repeated later. -/
def settleFields : List (String × Json) → List (String × Json)
  | [] => []
  | (k, v) :: rest =>
    if rest.any (·.1 == k) then settleFields rest else (k, settle v) :: settleFields rest

end

end Json

end CodeAtlas
