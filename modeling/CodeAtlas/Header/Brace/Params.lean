/-
Parameter lists of the brace family.

A list is cut at its outer commas. A parameter may carry words such as `readonly`
in front, then its name or the pattern that it takes apart, and then a type behind
a colon and a default behind an equals sign.
-/
import CodeAtlas.Header.Construct
import CodeAtlas.Nesting.Split

set_option autoImplicit false

namespace CodeAtlas.Brace

/-- The words that may stand in front of a parameter, each with a space behind it. -/
def paramModifiers : List String :=
  ["public ", "private ", "protected ", "readonly ", "override "]

/-- What is left of the text behind one of the modifiers. -/
def afterModifier? (t : List Char) : Option (List Char) :=
  paramModifiers.findSome? fun m => Text.after? m.toList t

/-- A modifier is not empty, so what is left behind it is shorter. -/
theorem length_lt_of_afterModifier? {t r : List Char} (h : afterModifier? t = some r) :
    r.length < t.length := by
  obtain ⟨m, hm, hr⟩ := List.exists_of_findSome?_eq_some h
  rw [Text.after?_eq_some_iff] at hr
  subst hr
  have : 0 < m.toList.length := by
    simp only [paramModifiers, List.mem_cons, List.not_mem_nil, or_false] at hm
    rcases hm with rfl | rfl | rfl | rfl | rfl <;> decide
  simp only [List.length_append]
  omega

def dropModifiers (t : List Char) : List Char :=
  match _h : afterModifier? t with
  | some r => dropModifiers (Text.trimStart r)
  | none => t
termination_by t.length
decreasing_by
  have := length_lt_of_afterModifier? _h
  have := Text.length_trimStart_le r
  omega

/-- The text without the groups of three dots in front. -/
def dropDots : List Char → List Char
  | '.' :: '.' :: '.' :: t => dropDots t
  | t => t

/-- Cuts at the first outer `sep`: what stands before it, and what follows it, trimmed. -/
def headAndRest (sep : Char) (t : List Char) : List Char × Option (List Char) :=
  match cutOuter? sep t with
  | some (head, rest) => (Text.trim head, some (Text.trim rest))
  | none => (t, none)

/-- One parameter; nothing where no name is left. -/
def param? (raw : List Char) : Option Parameter :=
  let t := dropModifiers (Text.trim raw)
  let (head, default) := headAndRest '=' (dropDots t)
  let (namePart, type) := headAndRest ':' head
  let namePart := Text.trim namePart
  let name := Text.trim (Text.dropEndWhile (· = '?') namePart)
  if name.isEmpty then none
  else
    some { name := textOf name, typeText := type.bind nonempty?,
           optional := namePart.getLast? = some '?' || default.isSome,
           defaultValue := default.bind nonempty?, rest := Text.starts "..." t }

/-- The parameters of a list, without its round brackets. -/
def params (t : List Char) : List Parameter := (splitOuter ',' t).filterMap param?

end CodeAtlas.Brace
