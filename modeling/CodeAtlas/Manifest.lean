/-
The manifest of an app.

A manifest is an object with nine known keys, none of which may be given twice. All of
them may be left out or null. Other keys are kept as they are.
-/
import CodeAtlas.Json.Decode
import CodeAtlas.Json.Reader
import CodeAtlas.Outline.Encode
import CodeAtlas.Text.Blank

set_option autoImplicit false

namespace CodeAtlas

structure Manifest where
  name : Option String
  version : Option String
  description : Option String
  author : Option String
  main : Option String
  icon : Option String
  permissions : Option (List String)
  category : Option String
  tags : Option (List String)
  /-- the other keys -/
  extra : List (String × Json)

namespace Manifest

def keys : List String :=
  ["name", "version", "description", "author", "main", "icon", "permissions", "category", "tags"]

/-- Is none of the known keys given twice? -/
def keysOnce (fields : List (String × Json)) : Bool :=
  keys.all fun k => fields.countP (·.1 == k) ≤ 1

def ofJson? : Json → Option Manifest
  | .obj fields => do
    guard (keysOnce fields)
    let value := fun k => (fields.lookup k).getD .null
    return {
      name := ← Json.textOption? (value "name"),
      version := ← Json.textOption? (value "version"),
      description := ← Json.textOption? (value "description"),
      author := ← Json.textOption? (value "author"),
      main := ← Json.textOption? (value "main"),
      icon := ← Json.textOption? (value "icon"),
      permissions := ← Json.option? Json.texts? (value "permissions"),
      category := ← Json.textOption? (value "category"),
      tags := ← Json.option? Json.texts? (value "tags"),
      extra := Json.settleFields (fields.filter fun f => !keys.contains f.1) }
  | _ => none

def parse? (t : List Char) : Option Manifest :=
  (Json.read? (some Json.maxDepth) t).bind ofJson?

/-- The manifest with all known keys, and the other ones behind them. -/
def toJson (m : Manifest) : Json := .obj ([
  ("name", textJson m.name), ("version", textJson m.version),
  ("description", textJson m.description), ("author", textJson m.author),
  ("main", textJson m.main), ("icon", textJson m.icon),
  ("permissions", Json.ofOption Json.strs m.permissions), ("category", textJson m.category),
  ("tags", Json.ofOption Json.strs m.tags)] ++ m.extra)

/-- Is a text given, and not blank? -/
def isGiven (t : Option String) : Bool := t.any fun s => !Text.isBlank s.toList

/-- The keys that every manifest should have and this one has not. -/
def missing (m : Manifest) : List String :=
  ([("name", m.name), ("version", m.version), ("description", m.description),
    ("author", m.author), ("main", m.main)].filter fun f => !isGiven f.2).map (·.1)

end Manifest

end CodeAtlas
