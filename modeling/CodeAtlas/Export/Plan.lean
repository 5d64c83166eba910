/-
Plans of exports.

A super project is a directory with two known packages in it. Somewhere below it an
export covers the whole of it, cut down to a profile; anywhere else it covers the
current directory. The plan fixes the root, where the result goes and what the tool is
told, before anything is done.
-/
import CodeAtlas.Export.Profile
import CodeAtlas.Export.Stamp
import CodeAtlas.Export.Tool

set_option autoImplicit false

namespace CodeAtlas

/-! ## Looking around -/

/-- The packages that mark the root of a super project. -/
def rootMarkers : List String := ["neira-core", "neira-cli-mcp"]

/-- The nearest directory, from a path upward, in which all markers are. -/
def superRoot? (t : Tree) (start : String) : Option String :=
  (PathName.ancestors start).find? fun dir =>
    rootMarkers.all fun m => t.isThere (PathName.join dir m)

def packageStart : String := "neira-"

/-- The packages in a directory, in the order of their names. -/
def packagesIn (t : Tree) (root : String) : List String :=
  match t.names root with
  | .error _ => []
  | .ok names => names.filter fun name =>
      Text.starts packageStart name.toList &&
        t.isFile (PathName.join (PathName.join root name) "package.json")

def exportIgnoreName : String := ".exportignore"

/-- The further excludes of a project; none if the file is missing. -/
def exportIgnore (t : Tree) (root : String) : Except ExportError (List String) :=
  let path := PathName.join root exportIgnoreName
  match t.readIfThere path with
  | .ok s => .ok ((s.map fun s => extraExcludes s.toList).getD [])
  | .error e => .error (.io ⟨path, e⟩)

/-- The name of a project, safe for files: the last part of its path, or the part in front
of it, or a word where there is none. -/
def projectName (t : Tree) (path : String) : String :=
  let full := match t.find path with
    | .ok (p, _) => Tree.placeName p
    | .error _ => path
  let last := (PathName.fileName? full).or ((PathName.parent? full).bind PathName.fileName?)
  match last.map fun s => slug s.toList with
  | none | some [] => "project"
  | some name => String.ofList name

/-! ## Plans -/

/-- What is exported. -/
inductive ExportTarget where
  | superProject (profile : Profile) (packages : List String)
  | currentProject (name : String)
  deriving DecidableEq, Repr

/-- All that is fixed before an export. -/
structure ExportPlan where
  root : String
  target : ExportTarget
  versionDir : String
  outputFile : String
  extraExcludes : List String
  deriving DecidableEq, Repr

namespace ExportPlan

/-- The root of an export that is started in `cwd`, and what is exported. -/
def locate (t : Tree) (cwd profile : String) : Except ExportError (String × ExportTarget) :=
  match superRoot? t cwd with
  | some root =>
    let packages := packagesIn t root
    match Profile.ofName? profile packages with
    | some p => .ok (root, .superProject p packages)
    | none => .error (.unknownProfile profile)
  | none => .ok (cwd, .currentProject (projectName t cwd))

def defaultName (now : Clock) : ExportTarget → String
  | .superProject p _ =>
      "v" ++ now.time ++ "-" ++ now.date ++ "-" ++ p.name ++ "-neira-super-app.md"
  | .currentProject name => "v" ++ now.time ++ "-" ++ now.date ++ "-" ++ name ++ ".md"

/-- The directory for the results of one minute. -/
def versionDirOf (root : String) (now : Clock) : String :=
  [".neira", "export_code", now.date, "v" ++ now.time].foldl PathName.join root

/-- The plan of an export that is started in `cwd` at a time. -/
def resolve (t : Tree) (cwd profile : String) (output : Option String) (now : Clock) :
    Except ExportError ExportPlan := do
  let (root, target) ← locate t cwd profile
  let versionDir := versionDirOf root now
  let extra ← exportIgnore t root
  return {
    root, target, versionDir,
    outputFile := PathName.join versionDir (output.getD (defaultName now target)),
    extraExcludes := extra }

/-- Each value behind a flag. -/
def flagged (flag : String) (values : List String) : List String :=
  values.flatMap fun v => [flag, v]

/-- What the tool is told. -/
def args (plan : ExportPlan) : List String :=
  match plan.target with
  | .superProject p _ =>
    [plan.root, "--no-clipboard", "-O", plan.outputFile] ++ flagged "-e" commonExcludes ++
      flagged "-e" plan.extraExcludes ++ flagged "-i" p.includes ++ flagged "-e" p.excludes
  | .currentProject _ =>
    [".", "--no-clipboard", "-O", plan.outputFile] ++ flagged "-e" basicExcludes ++
      flagged "-e" plan.extraExcludes

end ExportPlan

end CodeAtlas
