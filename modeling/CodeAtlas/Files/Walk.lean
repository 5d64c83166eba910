/-
The files below a directory.

A file is reached if every name on the way down to it is let in: each directory is asked
for as a directory, the file as a file. The files come in the order of a walk, which
takes the names of each directory in their order and goes down where it meets a
directory; that is the order of the lists of names.
-/
import CodeAtlas.Files.Tree

set_option autoImplicit false

namespace CodeAtlas

/-- A file that was reached: its names below the directory of the walk, and its bytes. -/
structure Found where
  names : List String
  bytes : ByteArray

/-- The names with slashes between them; a backslash counts as a slash. -/
def slashed (names : List String) : List Char :=
  ("/".intercalate names).toList.map fun c => if c = '\\' then '/' else c

namespace Walk

/-- Is every name on the way down let in? `admits` is asked for the names up to each of
them, and whether they lead to a directory. -/
def reaches (admits : List String → Bool → Bool) (names : List String) : Bool :=
  (List.range names.length).all fun k => admits (names.take (k + 1)) (k + 1 < names.length)

/-- The file of an entry, if it stands below the directory. -/
def below? (dir : Place) (entry : Place × Entry) : Option Found :=
  match entry with
  | (p, .file bytes) =>
    if dir.isPrefixOf p && dir.length < p.length then some ⟨p.drop dir.length, bytes⟩ else none
  | (_, .dir) => none

/-- The files below a directory that are reached, in the order of a walk. -/
def files (t : Tree) (dir : Place) (admits : List String → Bool → Bool) : List Found :=
  ((t.entries.filterMap (below? dir)).filter fun f => reaches admits f.names).mergeSort
    fun a b => !decide (b.names < a.names)

end Walk

end CodeAtlas
