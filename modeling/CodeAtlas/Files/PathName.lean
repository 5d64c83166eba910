/-
Names of places in a file system.

A path name is a text: names of directories with slashes between them. Joining,
cutting off the last part and reading the last part work on the text alone and do
not ask what is there. Empty parts and parts that are a single dot say nothing.
-/
import CodeAtlas.Text.Basic

set_option autoImplicit false

namespace CodeAtlas.PathName

def isAbsolute (p : String) : Bool := p.toList.head? = some '/'

/-- The place `p`, seen from `base`. -/
def join (base p : String) : String :=
  if isAbsolute p || base.isEmpty then p
  else if base.toList.getLast? = some '/' then base ++ p
  else base ++ "/" ++ p

/-- Is the text, backwards, a slash or a dot that stands alone behind a slash? -/
def endsIdle : List Char → Bool
  | ['/'] => false
  | '/' :: _ => true
  | '.' :: '/' :: _ => true
  | _ => false

/-- Drops slashes and single dots at the end; the text stands backwards. -/
def dropIdle : List Char → List Char
  | [] => []
  | c :: t => if endsIdle (c :: t) then dropIdle t else c :: t

/-- The name without slashes and single dots at its end. -/
def trimmed (p : String) : String := String.ofList (dropIdle p.toList.reverse).reverse

/-- The place in which the last part of the name stands; nothing for the root and the
empty name. -/
def parent? (p : String) : Option String :=
  let t := dropIdle p.toList.reverse
  match t with
  | [] => none
  | ['/'] => none
  | t => some (String.ofList (dropIdle (t.dropWhile (· ≠ '/'))).reverse)

/-- The last part of the name, unless it goes upward. -/
def fileName? (p : String) : Option String :=
  let last := ((dropIdle p.toList.reverse).takeWhile (· ≠ '/')).reverse
  if last = [] || last = ['.'] || last = ['.', '.'] then none else some (String.ofList last)

/-- The name and all names of places above it, from the inside out. A parent is shorter,
so as many steps as the name has characters are enough. -/
def ancestorsFrom : Nat → String → List String
  | 0, p => [p]
  | fuel + 1, p =>
    match parent? p with
    | some q => p :: ancestorsFrom fuel q
    | none => [p]

/-- The name and all names of places above it, from the inside out. -/
def ancestors (p : String) : List String := ancestorsFrom p.length p

/-- What follows the last dot of a name, unless the name begins with it. -/
def extension? (name : String) : Option String :=
  match Text.cutLast? '.' name.toList with
  | some (_ :: _, ext) => some (String.ofList ext)
  | _ => none

/-- The parts between slashes. -/
def parts (p : String) : List String :=
  ((p.toList.splitOn '/').filter (!·.isEmpty)).map String.ofList

end CodeAtlas.PathName
