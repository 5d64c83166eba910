/-
The outline of a file.

`Scan.itemsFrom` hands each line to the handler that fits the state. A handler moves on by
at least one line, or ends a class and leaves its line to be read again outside; the
second reading moves on. So a file of `n` lines takes at most `2 * n` calls.
-/
import CodeAtlas.Label
import CodeAtlas.Scan.Brace
import CodeAtlas.Scan.Indent

set_option autoImplicit false

namespace CodeAtlas

namespace Scan

def outsideStep (s : Scan) (at_ : Nat) (ls : List Line) : Step :=
  match s.family with
  | .brace => Brace.outsideStep s at_ ls
  | .indent => Indent.outsideStep s at_ ls

def insideStep (s : Scan) (c : ClassScope) (at_ : Nat) (ls : List Line) : Step :=
  match s.family with
  | .brace => Brace.insideStep s c at_ ls
  | .indent => Indent.insideStep s c at_ ls

def step (s : Scan) (at_ : Nat) (ls : List Line) : Step :=
  match s.scope with
  | some c => s.insideStep c at_ ls
  | none => s.outsideStep at_ ls

/-- Handles a line until it is done: the state behind it, what it records, and the number
of further lines that are done. -/
def advance (s : Scan) (at_ : Nat) (ls : List Line) : Scan × List Item × Nat :=
  match s.step at_ ls with
  | .done s items further => (s, items, further)
  -- a line that ends a class is read again outside of it
  | .again s items =>
    match s.outsideStep at_ ls with
    | .done s more further => (s, items ++ more, further)
    | .again s more => (s, items ++ more, 0)

/-- What the lines record, the first of which has index `at_`. -/
def itemsFrom (s : Scan) (at_ : Nat) : List Line → List Item
  -- the end of the file closes the class that is open
  | [] => (s.scope.map Item.closed).toList
  | l :: ls =>
    let (s, items, further) := s.advance at_ (l :: ls)
    items ++ itemsFrom s (at_ + further + 1) (ls.drop further)
termination_by ls => ls.length
decreasing_by
  simp only [List.length_drop, List.length_cons]
  omega

end Scan

/-- The constructs of a file, by its lines. -/
def scanLines (path : String) (family : Family) (ls : List Line) : Outline :=
  .ofItems path family (Scan.itemsFrom { path, family } 0 ls)

/-- The outline of a file. -/
def Outline.build (path : String) (content : List Char) (family : Family) : Outline :=
  let ls := Text.lines content
  { scanLines path family ls with
    size := Text.byteLength content,
    lineCount := ls.length,
    purpose := Label.purpose path.toList content,
    domain := Label.domain content,
    layer := Label.layer path.toList,
    configuration := Label.configuration content : Outline }.recount

end CodeAtlas
