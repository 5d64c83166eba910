/-
A file system.

A place is the list of the names that lead to it from the root. The tree says what
stands at each place: a directory, or a file with its bytes. There are no links.
Operations take path names, which are resolved part by part: each part but the last
must be a directory that is there.
-/
import CodeAtlas.Files.PathName
import CodeAtlas.Files.Utf8

set_option autoImplicit false

namespace CodeAtlas

inductive FileError where
  | notFound | notDirectory | isDirectory | exists | denied | nameTooLong
  /-- a path name with the character zero in it -/
  | zeroInName
  /-- a program that cannot be told its arguments: they hold the character zero, or are
  too long -/
  | zeroInArgument | argumentsTooLong
  /-- the bytes of a file are no text -/
  | notText
  /-- a scan needs a directory to begin with -/
  | noProject
  deriving DecidableEq, Repr

def FileError.message : FileError → String
  | .notFound => "No such file or directory (os error 2)"
  | .notDirectory => "Not a directory (os error 20)"
  | .isDirectory => "Is a directory (os error 21)"
  | .exists => "File exists (os error 17)"
  | .denied => "Permission denied (os error 13)"
  | .nameTooLong => "File name too long (os error 36)"
  | .zeroInName => "file name contained an unexpected NUL byte"
  | .zeroInArgument => "nul byte found in provided data"
  | .argumentsTooLong => "Argument list too long (os error 7)"
  | .notText => "stream did not contain valid UTF-8"
  | .noProject => "project root is not a directory"

/-- The names that lead to a place from the root. -/
abbrev Place := List String

/-- What stands at a place. -/
inductive Entry where
  | dir
  | file (bytes : ByteArray)

instance : DecidableEq Entry
  | .dir, .dir => isTrue rfl
  | .dir, .file _ => isFalse Entry.noConfusion
  | .file _, .dir => isFalse Entry.noConfusion
  | .file a, .file b =>
    match ByteArray.instDecidableEq a b with
    | isTrue h => isTrue (congrArg Entry.file h)
    | isFalse h => isFalse fun heq => h (Entry.file.inj heq)

def Entry.isFile : Entry → Bool
  | .file _ => true
  | .dir => false

/-- What stands at each place; the root is always a directory. -/
structure Tree where
  entries : List (Place × Entry)
  deriving DecidableEq, Inhabited

namespace Tree

/-- What stands at a place. -/
def entry? (t : Tree) (p : Place) : Option Entry :=
  if p.isEmpty then some .dir else t.entries.lookup p

/-- The tree with something put at a place, instead of what stood there. -/
def put (t : Tree) (p : Place) (e : Entry) : Tree :=
  if t.entries.any (·.1 = p) then
    ⟨t.entries.map fun (q, old) => if q = p then (q, e) else (q, old)⟩
  else ⟨t.entries ++ [(p, e)]⟩

/-- The tree without what stands at a place and below it. -/
def removeBelow (t : Tree) (p : Place) : Tree := ⟨t.entries.filter fun (q, _) => !p.isPrefixOf q⟩

/-! ## Resolving path names -/

/-- The longest name of one part, in bytes. -/
def maxNameLength : Nat := 255

/-- The longest path name, in bytes. -/
def maxPathLength : Nat := 4095

/-- The place that the parts lead to from a directory, each of them a directory. -/
def descend (t : Tree) (dir : Place) : List String → Except FileError Place
  | [] => .ok dir
  | part :: parts =>
    if part = "." then descend t dir parts
    else if part = ".." then descend t dir.dropLast parts
    else if maxNameLength < part.utf8ByteSize then .error .nameTooLong
    else
      match t.entry? (dir ++ [part]) with
      | none => .error .notFound
      | some (.file _) => .error .notDirectory
      | some .dir => descend t (dir ++ [part]) parts

def endsInSlash (p : String) : Bool := p.toList.getLast? = some '/'

/-- What a path name leads to. -/
inductive Target where
  /-- a directory, without a name of its own -/
  | here (dir : Place)
  /-- a name in a directory, whether anything stands there or not -/
  | named (dir : Place) (name : String)

/-- What a path name leads to, if all parts but the last are directories. -/
def target (t : Tree) (p : String) : Except FileError Target := do
  if p.toList.contains '\x00' then throw .zeroInName
  if p.isEmpty then throw .notFound
  if maxPathLength < p.utf8ByteSize then throw .nameTooLong
  let parts := PathName.parts p
  let dir ← t.descend [] parts.dropLast
  match parts.getLast? with
  | none => return .here dir
  | some last =>
    if last = "." then return .here dir
    else if last = ".." then return .here dir.dropLast
    else if maxNameLength < last.utf8ByteSize then throw .nameTooLong
    else return .named dir last

/-- The place and the thing that a path name leads to. -/
def find (t : Tree) (p : String) : Except FileError (Place × Entry) := do
  match ← t.target p with
  | .here dir => return (dir, .dir)
  | .named dir name =>
    match t.entry? (dir ++ [name]) with
    | none => throw .notFound
    | some .dir => return (dir ++ [name], .dir)
    | some (.file bytes) =>
      if endsInSlash p then throw .notDirectory else return (dir ++ [name], .file bytes)

/-! ## Reading -/

def isThere (t : Tree) (p : String) : Bool := (t.find p).isOk

def isDirectory (t : Tree) (p : String) : Bool :=
  match t.find p with
  | .ok (_, .dir) => true
  | _ => false

def isFile (t : Tree) (p : String) : Bool :=
  match t.find p with
  | .ok (_, .file _) => true
  | _ => false

def readBytes (t : Tree) (p : String) : Except FileError ByteArray := do
  match ← t.find p with
  | (_, .dir) => throw .isDirectory
  | (_, .file bytes) => return bytes

def readText (t : Tree) (p : String) : Except FileError String := do
  match Utf8.text? (← t.readBytes p) with
  | some s => return s
  | none => throw .notText

/-- The text of a file; nothing if there is nothing. -/
def readIfThere (t : Tree) (p : String) : Except FileError (Option String) :=
  match t.readText p with
  | .ok s => .ok (some s)
  | .error .notFound => .ok none
  | .error e => .error e

/-- The names in a directory, in their order. -/
def names (t : Tree) (p : String) : Except FileError (List String) := do
  match ← t.find p with
  | (_, .file _) => throw .notDirectory
  | (dir, .dir) =>
    let below := t.entries.filterMap fun (q, _) =>
      if q.length = dir.length + 1 && dir.isPrefixOf q then q.getLast? else none
    return below.mergeSort (fun a b => decide (a ≤ b))

/-! ## Writing -/

def makeDirectory (t : Tree) (p : String) : Except FileError Tree := do
  match ← t.target p with
  | .here _ => throw .exists
  | .named dir name =>
    match t.entry? (dir ++ [name]) with
    | some _ => throw .exists
    | none => return t.put (dir ++ [name]) .dir

/-- Makes a directory behind the one above it was made: no error if it is there. -/
def makeLast (t : Tree) (p : String) : Tree × Option FileError :=
  match t.makeDirectory p with
  | .ok t => (t, none)
  | .error e => (t, if t.isDirectory p then none else some e)

/-- Makes a directory and those above it that are missing; `fuel` bounds their number. -/
def makeDirectoriesFrom (t : Tree) : Nat → String → Tree × Option FileError
  | 0, _ => (t, some .notFound)
  | fuel + 1, p =>
    if p.isEmpty then (t, none)
    else
      match t.makeDirectory p, PathName.parent? p with
      | .error .notFound, some above =>
        match makeDirectoriesFrom t fuel above with
        | (t, none) => t.makeLast p
        -- what could be made stays
        | (t, some e) => (t, some e)
      | _, _ => t.makeLast p

/-- Makes a directory and those above it that are missing. -/
def makeDirectories (t : Tree) (p : String) : Tree × Option FileError :=
  t.makeDirectoriesFrom (p.length + 1) p

/-- Writes a file, new or instead of an old one. -/
def writeBytes (t : Tree) (p : String) (bytes : ByteArray) : Except FileError Tree := do
  match ← t.target p with
  | .here _ => throw .isDirectory
  | .named dir name =>
    if endsInSlash p then throw .isDirectory
    else
      match t.entry? (dir ++ [name]) with
      | some .dir => throw .isDirectory
      | _ => return t.put (dir ++ [name]) (.file bytes)

def writeText (t : Tree) (p : String) (s : String) : Except FileError Tree :=
  t.writeBytes p s.toUTF8

/-- The place of what is there, as an absolute name without idle parts. -/
def placeName (p : Place) : String := if p.isEmpty then "/" else String.join (p.map ("/" ++ ·))

end Tree

end CodeAtlas
