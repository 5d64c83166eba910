/-
The files of a project that are read before a scan.

The settings and the manifest stand in files of fixed names in the root. Where one is
missing, there are no settings and no manifest; one that cannot be read is an error.
-/
import CodeAtlas.Files.PathError
import CodeAtlas.Manifest
import CodeAtlas.Settings.Reader

set_option autoImplicit false

namespace CodeAtlas

/-- Why the files of a project cannot be read. -/
inductive ProjectError where
  | io (e : PathError)
  | badSettings (path : String)
  | badManifest (path : String)
  deriving DecidableEq, Repr

namespace ProjectError

def message : ProjectError → String
  | .io e => e.message
  | .badSettings path => "invalid config file " ++ path ++ ": "
  | .badManifest path => "invalid manifest " ++ path ++ ": "

/-- The text of an error, and the texts of what caused it. -/
def causes : ProjectError → List String
  | .io e => e.causes
  | e => [e.message]

end ProjectError

/-- The text of a file in the root, if the file is there. -/
def readProjectFile (t : Tree) (path : String) : Except ProjectError (Option String) :=
  (t.readIfThere path).mapError fun e => .io ⟨path, e⟩

def Settings.fileName : String := "repomap.toml"

def Settings.load (t : Tree) (root : String) : Except ProjectError Settings := do
  let path := PathName.join root Settings.fileName
  match ← readProjectFile t path with
  | none => return {}
  | some s =>
    match Settings.parse? s.toList with
    | some settings => return settings
    | none => throw (.badSettings path)

def Manifest.fileName : String := "neira-app.json"

/-- The manifest of the project, if there is one. -/
def Manifest.load (t : Tree) (root : String) : Except ProjectError (Option Manifest) := do
  let path := PathName.join root Manifest.fileName
  match ← readProjectFile t path with
  | none => return none
  | some s =>
    match Manifest.parse? s.toList with
    | some m => return some m
    | none => throw (.badManifest path)

end CodeAtlas
