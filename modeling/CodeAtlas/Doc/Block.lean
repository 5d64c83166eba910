/-
Doc blocks.

A doc block stands between `/**` and `*/` and is read line by line into a buffer.
The next declaration takes it out, once and only if it is complete. Its description
is the text in front of the first tag.
-/
import CodeAtlas.Text.Basic

set_option autoImplicit false

namespace CodeAtlas

/-- The text of a doc comment: its first part, and all of it. -/
structure Doc where
  description : Option String := none
  full : Option String := none
  deriving DecidableEq, Repr, Inhabited

namespace Doc

def unlessBlank (t : List Char) : Option String :=
  if Text.isBlank t then none else some (String.ofList t)

/-- One line of a block without the marks of the comment. -/
def stripMarks (l : Line) : Line :=
  let t := Text.dropLead "/**" (Text.trim l)
  let t := Text.trim (Text.dropClose "*/" t)
  Text.trim (Text.dropLead "*" t)

/-- Reads a block: the lines that are not empty, and as the description those of them
in front of the first one that begins with a tag. -/
def ofBlock (raw : List Char) : Doc :=
  let cleaned := (Text.lines raw).map stripMarks
  let description := (cleaned.takeWhile fun l => l.head? ≠ some '@').filter (!·.isEmpty)
  let full := cleaned.filter (!·.isEmpty)
  { description := unlessBlank ([' '].intercalate description),
    full := unlessBlank (['\n'].intercalate full) }

end Doc

/-- The lines of a block that have been read, the newest first, and whether its end is
still to come. -/
structure DocBuffer where
  back : List Line := []
  isOpen : Bool := false
  deriving DecidableEq, Repr, Inhabited

namespace DocBuffer

def closes (l : Line) : Bool := Text.has "*/" l

/-- A new block begins; what was there before is dropped. -/
def start (l : Line) : DocBuffer := { back := [l], isOpen := !closes l }

def push (b : DocBuffer) (l : Line) : DocBuffer :=
  { back := l :: b.back, isOpen := b.isOpen && !closes l }

/-- The comment in the buffer, if it is complete and says something. -/
def doc? (b : DocBuffer) : Option Doc :=
  if b.back.isEmpty || b.isOpen then none
  else
    let doc := Doc.ofBlock (['\n'].intercalate b.back.reverse)
    if doc.full.isNone then none else some doc

/-- Hands out the comment and leaves the buffer empty. -/
def take (b : DocBuffer) : Option Doc × DocBuffer := (b.doc?, {})

end DocBuffer

end CodeAtlas
