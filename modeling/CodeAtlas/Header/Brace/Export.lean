/-
Exports of the brace family.

Each form of `export` on one line gives records of the names that leave the file.
The declaration on the same line is recognised on its own.
-/
import CodeAtlas.Header.Construct

set_option autoImplicit false

namespace CodeAtlas.Brace

open Pattern

/-- `export` in front of a declaration. -/
def exportDeclaration : Pattern :=
  word "export" ++ flag .byDefault "default" ++ opt (word "declare") ++ opt (word "abstract") ++
    opt (word "async") ++
    keep .keyword (oneOf ["function", "class", "interface", "type", "const", "let", "var", "enum",
      "namespace"]) ++ edge ++ blanks ++ opt (lit "*") ++ blanks ++ keep .name name

/-- `export` with a list of names. -/
def exportList : Pattern :=
  word "export" ++ opt (word "type") ++ lit "\x7b" ++ keep .clause (many (noneOf "\x7d")) ++
    lit "\x7d"

/-- `export` of everything in another module. -/
def exportAll : Pattern :=
  word "export" ++ word "*" ++ opt (word "as" ++ keep .name name ++ gap) ++ word "from" ++
    one (fun c => c = '\'' || c = '"') ++ some1 (noneOf "'\"") ++
    one (fun c => c = '\'' || c = '"')

/-- `export default` in front of an expression. -/
def exportDefault : Pattern :=
  word "export" ++ lit "default" ++ edge ++ blanks ++ opt (word "async") ++ opt (keep .name name)

/-- One entry of an export list leaves under the name behind its last `as`. -/
def exportEntry? (entry : List Char) : Option ExportRecord :=
  let entry := Text.trim (Text.dropLead "type " (Text.trim entry))
  if entry.isEmpty then none
  else
    let name := trimmedText (Text.afterLast " as " entry)
    let isDefault := name == "default"
    some { name, kind := if isDefault then .default else .named, isDefault, line := 1 }

/-- Words behind `export default` that are no name. -/
def namelessWords : List String := ["function", "class", "new", "async"]

/-- The names that leave the file with the statement that the text begins with. -/
def exportsOf (t : List Char) : List ExportRecord :=
  if !Text.starts "export" t then []
  else
    match exportDeclaration.match? t with
    | some m =>
      [{ name := textOf (m.part .name), kind := ExportKind.ofKeyword (m.part .keyword),
         isDefault := m.has .byDefault, line := 1 }]
    | none =>
      match exportList.match? t with
      | some m => ((m.part .clause).splitOn ',').filterMap exportEntry?
      | none =>
        match exportAll.match? t with
        | some m =>
          [{ name := ((m.part? .name).map textOf).getD "*", kind := .named, line := 1 }]
        | none =>
          match exportDefault.match? t with
          | some m =>
            let name := ((m.part? .name).map textOf).getD "default"
            [{ name := if namelessWords.contains name then "default" else name,
               kind := .default, isDefault := true, line := 1 }]
          | none => []

end CodeAtlas.Brace
