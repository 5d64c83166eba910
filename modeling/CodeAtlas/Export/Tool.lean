/-
The export tool.

An export is made by another program. Here it is a value: what asking for its version
gives, and what a run with arguments in a directory leaves of the file system. Asking
for the version changes nothing.
-/
import CodeAtlas.Files.PathError
import CodeAtlas.Sum

set_option autoImplicit false

namespace CodeAtlas

/-- How a program that was started ends. -/
structure ToolExit where
  code : Int := 0
  stdout : String := ""
  stderr : String := ""
  deriving DecidableEq, Repr

structure Tool where
  /-- how it is called -/
  name : String
  /-- what asking for its version gives, if it can be started -/
  version : Except FileError ToolExit
  /-- what a run in a directory with arguments leaves, if it can be started -/
  run : Tree → String → List String → Except FileError (Tree × ToolExit)

def Tool.absent (name : String) : Tool :=
  { name, version := .error .notFound, run := fun _ _ _ => .error .notFound }

/-- Why an export fails. -/
inductive ExportError where
  | toolMissing (tool : String)
  | notStarted (tool : String) (cause : FileError)
  | failed (code : Int) (stderr : String)
  | unknownProfile (name : String)
  | io (e : PathError)
  deriving DecidableEq, Repr

namespace ExportError

def message : ExportError → String
  | .toolMissing tool => "\x60" ++ tool ++ "\x60 is not installed or not on PATH"
  | .notStarted tool cause => "failed to spawn \x60" ++ tool ++ "\x60: " ++ cause.message
  | .failed code stderr => "export tool exited with code Some(" ++ toString code ++ "): " ++ stderr
  | .unknownProfile name => "unknown export profile \x60" ++ name ++ "\x60"
  | .io e => e.message

/-- The text of an error, and the texts of what caused it. -/
def causes : ExportError → List String
  | .notStarted tool cause => [message (.notStarted tool cause), cause.message]
  | .io e => e.causes
  | e => [e.message]

end ExportError

namespace Tool

def trimmed (s : String) : String := String.ofList (Text.trim s.toList)

/-- The version of the program; one that is not there, or fails, is missing. -/
def check (tool : Tool) : Except ExportError String :=
  match tool.version with
  | .ok e => if e.code = 0 then .ok (trimmed e.stdout) else .error (.toolMissing tool.name)
  | .error .notFound => .error (.toolMissing tool.name)
  | .error cause => .error (.notStarted tool.name cause)

/-- The longest argument of a program, in bytes. -/
def maxArgumentLength : Nat := 131071

/-- The most bytes that all arguments take, with one behind each and eight to find it. -/
def maxArgumentsSize : Nat := 2097152

/-- Are the arguments too long to be given to a program? -/
def areTooLong (args : List String) : Bool :=
  args.any (maxArgumentLength < ·.utf8ByteSize) ||
    maxArgumentsSize < sumOf (·.utf8ByteSize + 9) args

/-- Runs the program in a directory: what it leaves, and its output. -/
def runIn (tool : Tool) (t : Tree) (dir : String) (args : List String) :
    Tree × Except ExportError String :=
  let started : Except FileError (Tree × ToolExit) := do
    if (dir :: args).any (·.toList.contains '\x00') then throw .zeroInArgument
    match ← t.find dir with
    | (_, .file _) => throw .notDirectory
    | (_, .dir) => if areTooLong args then throw .argumentsTooLong else tool.run t dir args
  match started with
  | .error cause => (t, .error (.notStarted tool.name cause))
  | .ok (t, e) =>
    (t, if e.code = 0 then .ok e.stdout else .error (.failed e.code (trimmed e.stderr)))

end Tool

end CodeAtlas
