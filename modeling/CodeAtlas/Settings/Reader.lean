/-
Reading settings.

A file with settings has one setting on a line: a key, an equals sign and a value. A
list may go on over several lines. No key may be given twice, and there are no others.
-/
import CodeAtlas.Settings.Basic
import CodeAtlas.Settings.Token

set_option autoImplicit false

namespace CodeAtlas.Settings

inductive Value where
  | text (s : String)
  | flag (b : Bool)
  | texts (xs : List String)
  deriving DecidableEq, Repr

/-- The settings with one more; nothing if it is there already, has the wrong type, or is
unknown. -/
def set? (s : Settings) (key : String) (v : Value) : Option Settings :=
  match key, v with
  | "include", .texts xs => if s.include_.isNone then some { s with include_ := some xs } else none
  | "exclude", .texts xs => if s.exclude.isNone then some { s with exclude := some xs } else none
  | "output", .text p => if s.output.isNone then some { s with output := some p } else none
  | "respect_gitignore", .flag b =>
    if s.ignoreFiles.isNone then some { s with ignoreFiles := some b } else none
  | _, _ => none

/-- The name that a token is as a key. -/
def Token.key? : Token → Option String
  | .word s => some s
  | .text s false => some s
  | _ => none

/-- The value that a token is on its own. -/
def Token.value? : Token → Option Value
  | .text s _ => some (.text s)
  | .word "true" => some (.flag true)
  | .word "false" => some (.flag false)
  | _ => none

/-- What may come next in a list. -/
inductive InList where
  /-- an item, or the end -/
  | item
  /-- a comma, or the end -/
  | comma
  deriving DecidableEq, Repr

/-- Where the reader stands. -/
inductive At where
  /-- in front of a key -/
  | key
  /-- behind a key -/
  | equals (key : String)
  /-- behind an equals sign -/
  | value (key : String)
  /-- in a list, whose items stand backwards -/
  | list (key : String) (items : List String) (want : InList)
  /-- behind a value -/
  | done
  deriving DecidableEq, Repr

def step (s : Settings) (place : At) (token : Token) : Option (Settings × At) :=
  match place, token with
  | .key, .newline => some (s, .key)
  | .key, token => token.key?.map fun k => (s, .equals k)
  | .equals k, .equals => some (s, .value k)
  | .value k, .openList => some (s, .list k [] .item)
  | .value k, token => token.value?.bind fun v => (s.set? k v).map fun s => (s, .done)
  | .list k items want, .newline => some (s, .list k items want)
  | .list k items .item, .text x _ => some (s, .list k (x :: items) .comma)
  | .list k items .comma, .comma => some (s, .list k items .item)
  | .list k items _, .closeList => (s.set? k (.texts items.reverse)).map fun s => (s, .done)
  | .done, .newline => some (s, .key)
  | _, _ => none

def readFrom (s : Settings) (place : At) : List Token → Option Settings
  | [] => if place = .key || place = .done then some s else none
  | token :: rest =>
    match s.step place token with
    | some (s, place) => readFrom s place rest
    | none => none

def parse? (t : List Char) : Option Settings := (tokens? t).bind (readFrom {} .key)

end CodeAtlas.Settings
