/-
The outlines of a project.

A scan takes the files below the root that are reached, chooses those that fit one of
the globs to include and none to exclude, and makes an outline of each. A file that is
chosen and has no outline is reported with a reason. The order is that of the globs to
include, and for one glob that of the walk; a file that fits several counts for the
first.

A glob to exclude that ends in `/**` also keeps the walk out of the directories that the
part in front of it fits. As a rule all files below such a directory fit the glob itself,
and what is chosen does not change. It can change where the part in front ends in a slash:
`**/` fits every directory, while `**//**` fits no file.
-/
import CodeAtlas.Files.Glob
import CodeAtlas.Files.Ignore.RuleBook
import CodeAtlas.Files.PathError
import CodeAtlas.Files.Walk
import CodeAtlas.Scan.Build

set_option autoImplicit false

namespace CodeAtlas

structure ScanOptions where
  include_ : List String := ["**/*.ts", "**/*.tsx", "**/*.py", "**/*.js", "**/*.jsx"]
  exclude : List String := ["**/node_modules/**", "**/dist/**", "**/.git/**",
    "**/__pycache__/**", "**/*.pyc", "**/build/**", "**/coverage/**"]
  ignoreFiles : Bool := false
  deriving DecidableEq, Repr

/-- Why a file that was chosen has no outline. -/
inductive SkipReason where
  | unsupported
  | tooLarge (bytes : Nat)
  deriving DecidableEq, Repr

def SkipReason.message : SkipReason → String
  | .unsupported => "unsupported file type"
  | .tooLarge bytes => "too large (" ++ toString bytes ++ " bytes)"

/-- A file that was chosen and has no outline. -/
structure Skipped where
  path : String
  reason : SkipReason
  deriving DecidableEq, Repr

/-- What is reported of the file. -/
def Skipped.message (s : Skipped) : String := s.path ++ ": " ++ s.reason.message

/-- What a scan finds: the outlines, the files that were chosen and have none, and the
globs that are none. -/
structure Corpus where
  outlines : List Outline
  skipped : List Skipped
  badGlobs : List (String × GlobError)

namespace Corpus

/-! ## Globs -/

def globs (texts : List String) : List Glob := texts.filterMap fun s => (Glob.parse s).toOption

/-- The texts that are no globs. -/
def badGlobsOf (texts : List String) : List (String × GlobError) :=
  texts.filterMap fun s =>
    match Glob.parse s with
    | .ok _ => none
    | .error e => some (s, e)

/-- The globs of the directories that need not be entered. -/
def pruning (exclude : List String) : List Glob :=
  globs (exclude.filterMap fun s =>
    if Text.ends "/**" s.toList then some (String.ofList (Text.dropClose "/**" s.toList))
    else none)

/-! ## Choosing files -/

/-- Is the place let in? Directories that fit one of `pruned` are not. -/
def lets (book : Ignore.RuleBook) (pruned : List Glob) (dir : Place) (names : List String)
    (isDirectory : Bool) : Bool :=
  Ignore.admits book (dir ++ names) isDirectory &&
    !(isDirectory && pruned.any (·.accepts (slashed names)))

/-- The paths that fit, those of the first glob to include in front. -/
def chosen (o : ScanOptions) (paths : List (List Char)) : List (List Char) :=
  let excluded := globs o.exclude
  Text.unrepeated ((globs o.include_).flatMap fun g =>
    paths.filter fun p => g.accepts p && !excluded.any (·.accepts p))

/-! ## Outlines -/

/-- The greatest file that gets an outline, in bytes. -/
def maxFileSize : Nat := 2000000

/-- The language family of a file, by its last name. -/
def familyOf? (names : List String) : Option Family :=
  ((names.getLast?.bind PathName.extension?).bind Family.ofExtension?)

/-- The outline of a file, or why there is none. -/
def outlineOf (f : Found) : Except SkipReason Outline :=
  match familyOf? f.names with
  | none => .error .unsupported
  | some family =>
    if maxFileSize < f.bytes.size then .error (.tooLarge f.bytes.size)
    else
      .ok (Outline.build (String.ofList (slashed f.names)) (Utf8.repaired f.bytes).toList family)

/-- The first file with a path. -/
def fileAt? (files : List Found) (path : List Char) : Option Found :=
  files.find? fun f => slashed f.names = path

/-- What a scan from the working directory `cwd` finds, where the walk keeps out of the
directories that fit one of `pruned`. -/
def scanPruned (t : Tree) (cwd : String) (dir : Place) (o : ScanOptions) (pruned : List Glob) :
    Corpus :=
  let book := if o.ignoreFiles then Ignore.RuleBook.ofTree t cwd else []
  let files := Walk.files t dir (lets book pruned dir)
  let picked := (chosen o (files.map fun f => slashed f.names)).filterMap (fileAt? files)
  let outlined := picked.map fun f => (f, outlineOf f)
  { outlines := outlined.filterMap fun (_, outline) => outline.toOption,
    skipped := outlined.filterMap fun (f, outline) =>
      match outline with
      | .ok _ => none
      | .error reason => some ⟨String.ofList (slashed f.names), reason⟩,
    badGlobs := badGlobsOf (o.include_ ++ o.exclude) }

/-- What a scan from the working directory `cwd` finds below the root. -/
def scan (t : Tree) (cwd root : String) (o : ScanOptions) : Except PathError Corpus :=
  match t.find root with
  | .ok (dir, .dir) => .ok (scanPruned t cwd dir o (pruning o.exclude))
  | _ => .error ⟨root, .noProject⟩

end Corpus

end CodeAtlas
