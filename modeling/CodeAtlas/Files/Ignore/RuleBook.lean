/-
Ignore files.

A directory can hold files with rules that say which entries below it are left out. Of
several files with one name the innermost that says something decides; and of the names
the first in `ruleFiles` decides.

The last of these files belongs to a repository. A directory that is a second working
copy of a repository has a file `.git` that leads to the directory of the copy, and a
file `commondir` in there leads on to that of the repository. Relative names on this way
are seen from the working directory, except where the last one begins with a dot.
-/
import CodeAtlas.Files.Ignore.Rule
import CodeAtlas.Files.Tree

set_option autoImplicit false

namespace CodeAtlas.Ignore

/-! ## Second working copies -/

/-- The first line of a file, if it has one that is text. -/
def firstLine? (bytes : ByteArray) : Option String :=
  if bytes.isEmpty then none else (linesOf bytes).head?.map String.ofList

/-- The directory to which a file `.git` leads. -/
def gitDirectory? (bytes : ByteArray) : Option String := do
  let line ← firstLine? bytes
  (Text.after? "gitdir: ".toList line.toList).map String.ofList

/-- The file in the directory of a copy that leads to the repository. -/
def leadFile (gitDirectory : String) : String := PathName.join gitDirectory "commondir"

/-- The directory of the repository, from that of the copy and what its file says. -/
def commonDirectory (gitDirectory line : String) : String :=
  if line.toList.head? = some '.' then PathName.join gitDirectory line else line

/-- The file with the rules of the repository to which a file `.git` leads. -/
def sharedRuleFile? (t : Tree) (cwd : String) (bytes : ByteArray) : Option String := do
  let dir ← gitDirectory? bytes
  let lead ← (t.readBytes (PathName.join cwd (leadFile dir))).toOption
  let line ← firstLine? lead
  return PathName.join cwd (PathName.join (commonDirectory dir line) "info/exclude")

/-! ## The rules of a tree -/

/-- The files with rules, from the directory for which they hold; earlier ones win. -/
def ruleFiles : List Place := [[".ignore"], [".gitignore"], [".git", "info", "exclude"]]

/-- The rules of each file that has rules, by its place. -/
abbrev RuleBook := List (Place × List Rule)

/-- The rules that a file gives, by the place where they count as written. -/
def rulesAt? (t : Tree) (cwd : String) (p : Place) (bytes : ByteArray) :
    Option (Place × List Rule) :=
  if p.getLast? = some ".git" then do
    let shared ← (t.readBytes (← sharedRuleFile? t cwd bytes)).toOption
    return (p ++ ["info", "exclude"], rulesOf shared)
  else if ruleFiles.any (·.isSuffixOf p) then some (p, rulesOf bytes)
  else none

/-- The rules in the files of a tree, as seen from the working directory `cwd`. -/
def RuleBook.ofTree (t : Tree) (cwd : String) : RuleBook :=
  t.entries.filterMap fun
    | (p, .file bytes) => rulesAt? t cwd p bytes
    | (_, .dir) => none

def pathBelow (dir p : Place) : List Char := ("/".intercalate (p.drop dir.length)).toList

/-- The directories around a place, the innermost first. -/
def around (p : Place) : List Place := (List.range p.length).reverse.map p.take

/-- What the files with one name say of a place: the innermost that says something. -/
def admitsBy? (book : RuleBook) (file : Place) (p : Place) (isDirectory : Bool) : Option Bool :=
  (around p).findSome? fun dir =>
    (book.lookup (dir ++ file)).bind fun rules => admits? rules isDirectory (pathBelow dir p)

/-- Does the name of the place begin with a dot? -/
def isHidden (p : Place) : Bool := p.getLast?.any fun name => name.toList.head? = some '.'

/-- Is the place let in? Hidden places are not, unless a rule says so. -/
def admits (book : RuleBook) (p : Place) (isDirectory : Bool) : Bool :=
  (ruleFiles.findSome? (admitsBy? book · p isDirectory)).getD (!isHidden p)

end CodeAtlas.Ignore
