/-
Settings.

A project can say in a file what is scanned and where the report goes. Each setting may
be left out; settings given elsewhere take the place of those in the file, and defaults
stand in for the rest.
-/
import CodeAtlas.Corpus

set_option autoImplicit false

namespace CodeAtlas

structure Settings where
  include_ : Option (List String) := none
  exclude : Option (List String) := none
  output : Option String := none
  ignoreFiles : Option Bool := none
  deriving DecidableEq, Repr, Inhabited

namespace Settings

/-- The settings, where those of `winner` win. -/
def overlay (s winner : Settings) : Settings :=
  { include_ := winner.include_.or s.include_,
    exclude := winner.exclude.or s.exclude,
    output := winner.output.or s.output,
    ignoreFiles := winner.ignoreFiles.or s.ignoreFiles }

def scanOptions (s : Settings) : ScanOptions :=
  let o : ScanOptions := {}
  { include_ := s.include_.getD o.include_,
    exclude := s.exclude.getD o.exclude,
    ignoreFiles := s.ignoreFiles.getD o.ignoreFiles }

/-- The name of the report where no setting gives one. -/
def defaultOutput : String := "REPOSITORY_MAP.txt"

/-- Where the report goes, seen from the directory `cwd`. -/
def outputPath (s : Settings) (cwd : String) : String :=
  PathName.join cwd (s.output.getD defaultOutput)

/-- No settings change nothing. -/
theorem overlay_none (s : Settings) : s.overlay {} = s := by
  cases s
  simp [overlay]

end Settings

end CodeAtlas
