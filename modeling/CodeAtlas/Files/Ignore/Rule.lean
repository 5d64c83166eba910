/-
The rules of ignore files.

A rule is a glob on one line, matched against the path from the directory of the file,
with an exclamation mark in front if it lets entries in again. Of the rules of one file
the last one that fits decides.
-/
import CodeAtlas.Files.Ignore.Automaton

set_option autoImplicit false

namespace CodeAtlas.Ignore

structure Rule where
  /-- does it let entries in again? -/
  admits : Bool
  /-- does it speak of directories only? -/
  onlyDirectories : Bool
  glob : Glob

/-! ## Reading a line -/

/-- Without the slash at the end, which may be escaped; was there one? -/
def dropSlash (t : List Char) : List Char × Bool :=
  match t.reverse with
  | '/' :: '\\' :: u => (u.reverse, true)
  | '/' :: u => (u.reverse, true)
  | _ => (t, false)

/-- The glob of a rule as it is matched against whole paths. -/
def wholePath (anchored : Bool) (t : List Char) : List Char :=
  -- without a slash it fits in any directory
  let t := if anchored || t.contains '/' || t = ['*', '*'] then t else "**/".toList ++ t
  -- two stars at the end fit what is below a directory, but not the directory itself
  if Text.ends "/**" t then t ++ "/*".toList else t

/-- The rule with a glob: a slash at its begin ties it to the directory of the file. -/
def ruleOf? (admits anchored : Bool) (t : List Char) : Option Rule :=
  let (t, onlyDirectories) := dropSlash t
  (Glob.ofText? (wholePath anchored t)).map fun glob => ⟨admits, onlyDirectories, glob⟩

/-- The rule with a glob that may begin with a slash. -/
def anchoredRule? (admits : Bool) : List Char → Option Rule
  | '/' :: t => ruleOf? admits true t
  | t => ruleOf? admits false t

/-- The rule on a line, if there is one: blank lines and comments are none, and neither
are lines that are no glob. -/
def Rule.ofLine? (l : Line) : Option Rule :=
  if l.head? = some '#' then none
  else
    -- blanks at the end count only behind a backslash
    match if Text.ends "\\ " l then l else Text.trimEnd l with
    | [] => none
    | '\\' :: '!' :: t => ruleOf? false false ('!' :: t)
    | '\\' :: '#' :: t => ruleOf? false false ('#' :: t)
    | '!' :: t => anchoredRule? true t
    | t => anchoredRule? false t

/-! ## Reading a file -/

/-- The mark that some editors put in front of a text. -/
def byteOrderMark : Char := '\uFEFF'

/-- The lines of a file, up to the first that is no text. -/
def linesOf (bytes : ByteArray) : List Line :=
  let pieces := (bytes.toList.splitOn 10).map fun l => (Utf8.text? ⟨l.toArray⟩).map String.toList
  -- what follows the last line feed keeps its carriage return
  let ended := pieces.dropLast.map (·.map Text.dropCarriage)
  ((ended ++ pieces.getLast?.toList).takeWhile (·.isSome)).filterMap id

/-- The rules of a file. Rules that are too much together are none. -/
def rulesOf (bytes : ByteArray) : List Rule :=
  let lines := match linesOf bytes with
    | [] => []
    | l :: ls => l.dropWhile (· = byteOrderMark) :: ls
  let rules := lines.filterMap Rule.ofLine?
  if Glob.fitTogether (rules.map (·.glob)) then rules else []

/-! ## What rules say -/

/-- Does the rule fit the path? Its pattern is as long as the rule's author likes, so all
its matches are found at once. -/
def Rule.fits (r : Rule) (isDirectory : Bool) (path : List Char) : Bool :=
  let bytes := byteChars path
  (!r.onlyDirectories || isDirectory) &&
    (((r.glob.pattern ++ Pattern.last).allMatches bytes).at_ bytes.length).isSome

/-- What the rules of one file say of a path: the last one that fits decides. -/
def admits? (rules : List Rule) (isDirectory : Bool) (path : List Char) : Option Bool :=
  (rules.reverse.find? (·.fits isDirectory path)).map (·.admits)

end CodeAtlas.Ignore
