/-
The program.

It loads the part of the file system that a command may ask for, runs the command on it,
and writes back what the command changed. Below the directory that a map covers all is
loaded; around the paths that are only looked at, names are enough, except of hidden
files, which may hold rules, and of the rules of repositories. Links are passed over. The
program starts no other program, so the export tool counts as missing.
-/
import CodeAtlas.Command.Run
import Std.Time.Zoned

set_option autoImplicit false

namespace CodeAtlas.Program

/-! ## Loading -/

/-- What stands in a directory; nothing if it cannot be read. -/
def entriesOf (path : String) : IO (List (Place × String × IO.FS.FileType)) := do
  try
    let dir ← IO.FS.realPath path
    (← dir.readDir).toList.mapM fun e => do
      return (PathName.parts e.path.toString, e.path.toString, (← e.path.symlinkMetadata).type)
  catch _ => return []

/-- A directory, and all that stands below it. -/
partial def loadBelow (path : String) : IO (List (Place × Entry)) := do
  let found ← (← entriesOf path).mapM fun (place, child, type) => do
    match type with
    | .dir => return (place, Entry.dir) :: (← loadBelow child)
    | .file => return [(place, .file (← IO.FS.readBinFile child))]
    | _ => return []
  return found.flatten

/-- The entries of a directory by their names. -/
def loadNames (path : String) : IO (List (Place × Entry)) := do
  let found ← (← entriesOf path).mapM fun (place, child, type) => do
    match type with
    | .dir => return [(place, Entry.dir)]
    | .file =>
      if Ignore.isHidden place then return [(place, .file (← IO.FS.readBinFile child))]
      else return [(place, .file ByteArray.empty)]
    | _ => return []
  return found.flatten

/-- The tree with more entries, where nothing is known of their places. -/
def learn (t : Tree) (entries : List (Place × Entry)) : Tree :=
  ⟨t.entries ++ entries.filter fun (p, _) => (t.entry? p).isNone⟩

/-- The tree with the names around a path. -/
def lookAround (t : Tree) (path : String) : IO Tree :=
  (PathName.ancestors path).reverse.foldlM (fun t dir => return learn t (← loadNames dir)) t

/-- The tree with a file and the names around it, if there is such a file. -/
def learnFile (t : Tree) (path : String) : IO Tree := do
  let t ← lookAround t path
  try
    let place := PathName.parts (← IO.FS.realPath path).toString
    return t.put place (.file (← IO.FS.readBinFile path))
  catch _ => return t

/-- The tree with the rules of the repository to which a directory or a file `.git`
belongs. -/
def learnRepository (cwd : String) (t : Tree) : Place × Entry → IO Tree
  | (p, .dir) => learnFile t (PathName.join (Tree.placeName p) "info/exclude")
  | (_, .file bytes) =>
    match Ignore.gitDirectory? bytes with
    | none => return t
    | some dir => do
      let t ← learnFile t (PathName.join cwd (Ignore.leadFile dir))
      match Ignore.sharedRuleFile? t cwd bytes with
      | some file => learnFile t file
      | none => return t

/-- What making a map may ask for. -/
def loadForMap (cwd : String) (r : Command.MapRequest) : IO Tree := do
  let root := PathName.join cwd r.root
  let t ← lookAround (learn ⟨[]⟩ (← loadBelow root)) cwd
  let t ← lookAround t root
  let t ← (t.entries.filter (·.1.getLast? = some ".git")).foldlM (learnRepository cwd) t
  match Settings.load t root with
  | .ok s => lookAround t (Command.mapPath (s.overlay r.settings) r.json cwd)
  | .error _ => return t

/-- What an export may ask for: the packages of the super project, and earlier results. -/
def loadForExport (cwd : String) : IO Tree := do
  let t ← lookAround ⟨[]⟩ cwd
  let root := (superRoot? t cwd).getD cwd
  let t := learn t (← loadBelow (PathName.join root ".neira"))
  match t.names root with
  | .ok names => names.foldlM (fun t n => return learn t (← loadNames (PathName.join root n))) t
  | .error _ => return t

/-- What a command line may ask for. -/
def load (cwd : String) (args : List String) : IO Tree :=
  match Command.parse args with
  | .ok (.map r) => loadForMap cwd r
  | .ok (.export_ _) => loadForExport cwd
  | .error _ => return ⟨[]⟩

/-! ## Writing back -/

/-- The entries that were changed or added. A command removes nothing and keeps the order
of what was there. -/
def changes (old new : Tree) : List (Place × Entry) :=
  let kept := new.entries.zip old.entries
  (kept.filter fun (a, b) => a.2 ≠ b.2).map (·.1) ++ new.entries.drop old.entries.length

/-- Writes an entry to the file system. -/
def store (p : Place) : Entry → IO Unit
  | .dir => IO.FS.createDirAll (Tree.placeName p)
  | .file bytes => IO.FS.writeBinFile (Tree.placeName p) bytes

/-! ## Running -/

/-- The time: the minute, and a stamp for reports. -/
def readClock : IO (Clock × String) := do
  let now ← Std.Time.DateTime.now
  let c : Clock := ⟨now.year.toInt, now.month.val.toNat, now.day.val.toNat, now.hour.val.toNat,
    now.minute.val.toNat⟩
  return (c, c.stamp now.second.val.toNat (now.offset.second.val / 60))

def toolName : String := "code2prompt"

/-- Runs a command line in the current directory. -/
def run (args : List String) : IO UInt32 := do
  let cwd := (← IO.currentDir).toString
  let (now, stamp) ← readClock
  let old ← load cwd args
  let o := Command.run (Tool.absent toolName) old cwd stamp now args
  for (p, e) in changes old o.tree do store p e
  (← IO.getStdout).putStr o.output
  (← IO.getStderr).putStr o.log
  return o.code.toUInt32

end CodeAtlas.Program

def main (args : List String) : IO UInt32 := CodeAtlas.Program.run args
