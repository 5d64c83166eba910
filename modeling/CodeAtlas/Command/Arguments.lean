/-
Command lines.

A command line names one of two commands and gives options, each by a long name behind
two hyphens or by one letter behind one hyphen. Letters of options without a value may
stand together; a value stands behind its option as the next argument, behind an equals
sign, or behind the letter. A value of its own does not begin with a hyphen, unless it
is nothing else. Behind two hyphens alone no options follow.

Arguments are read from left to right, and the first that is wrong, or asks for the
version or for help, decides.
-/
import CodeAtlas.Text.Basic

set_option autoImplicit false

namespace CodeAtlas.Command

/-! ## Options -/

/-- What an option does. -/
inductive OptionKind where
  /-- it stands alone -/
  | flag
  /-- it has a value; a path, which may not be empty, or any text -/
  | value (isPath : Bool)
  /-- it has a value, and may be given several times -/
  | values
  /-- it asks for the version, or for help -/
  | version | help
  deriving DecidableEq, Repr

structure OptionSpec where
  long : String
  short : Option Char
  kind : OptionKind
  deriving DecidableEq, Repr

def OptionSpec.takesValue (o : OptionSpec) : Bool :=
  match o.kind with
  | .value _ | .values => true
  | _ => false

/-- Why the arguments are not read to the end. -/
inductive Stop where
  | wrong | version | help
  deriving DecidableEq, Repr

/-- What the arguments say so far: the options with their values, and the free words. -/
structure Given where
  options : List (String × String) := []
  words : List String := []
  deriving DecidableEq, Repr

namespace Given

def has (g : Given) (long : String) : Bool := g.options.any (·.1 = long)

def values (g : Given) (long : String) : List String :=
  (g.options.filter (·.1 = long)).map (·.2)

/-- The value of an option that is given at most once. -/
def value? (g : Given) (long : String) : Option String := (g.values long).head?

def give (g : Given) (o : OptionSpec) (value : String) : Except Stop Given :=
  match o.kind with
  | .version => .error .version
  | .help => .error .help
  | .values => .ok { g with options := g.options ++ [(o.long, value)] }
  | .flag => if g.has o.long then .error .wrong
    else .ok { g with options := g.options ++ [(o.long, value)] }
  | .value isPath =>
    if g.has o.long || (isPath && value.isEmpty) then .error .wrong
    else .ok { g with options := g.options ++ [(o.long, value)] }

def addWord (g : Given) (maxWords : Nat) (word : String) : Except Stop Given :=
  if g.words.length < maxWords then .ok { g with words := g.words ++ [word] } else .error .wrong

end Given

/-! ## Reading arguments -/

/-- Does the argument look like options, so that it is no value? -/
def looksLikeOption (arg : String) : Bool :=
  match arg.toList with
  | '-' :: _ :: _ => true
  | _ => false

/-- An option whose value is the next argument, and what is given so far. -/
structure Waiting where
  given : Given
  option : Option OptionSpec

/-- Reads the option with a long name, and the value behind an equals sign. -/
def readLong (specs : List OptionSpec) (g : Given) (name : List Char) : Except Stop Waiting :=
  let (name, attached) := match Text.cut? ['='] name with
    | some (name, v) => (name, some (String.ofList v))
    | none => (name, none)
  match specs.find? (·.long.toList = name) with
  | none => .error .wrong
  | some o =>
    if o.takesValue then
      match attached with
      | some v => (g.give o v).map fun g => ⟨g, none⟩
      | none => .ok ⟨g, some o⟩
    else if attached.isSome then .error .wrong
    else (g.give o "").map fun g => ⟨g, none⟩

/-- Reads letters of options, and the value behind the last one. -/
def readShort (specs : List OptionSpec) (g : Given) : List Char → Except Stop Waiting
  | [] => .ok ⟨g, none⟩
  | c :: cs =>
    match specs.find? (·.short = some c) with
    | none => .error .wrong
    | some o =>
      if o.takesValue then
        match cs with
        | [] => .ok ⟨g, some o⟩
        | '=' :: v => (g.give o (String.ofList v)).map fun g => ⟨g, none⟩
        | v => (g.give o (String.ofList v)).map fun g => ⟨g, none⟩
      else
        match g.give o "" with
        | .ok g => readShort specs g cs
        | .error s => .error s

/-- Reads one argument: options, or nothing if it is a free word. -/
def readOptions? (specs : List OptionSpec) (g : Given) (arg : String) :
    Option (Except Stop Waiting) :=
  match arg.toList with
  | '-' :: '-' :: name => some (readLong specs g name)
  | '-' :: c :: cs => some (readShort specs g (c :: cs))
  | _ => none

/-- Reads the arguments of a command with at most `maxWords` free words. -/
def readCommand (specs : List OptionSpec) (maxWords : Nat) (g : Given) :
    List String → Except Stop Given
  | [] => .ok g
  | "--" :: rest => rest.foldlM (fun g word => g.addWord maxWords word) g
  | arg :: rest =>
    match readOptions? specs g arg with
    | none =>
      match g.addWord maxWords arg with
      | .ok g => readCommand specs maxWords g rest
      | .error s => .error s
    | some (.error s) => .error s
    | some (.ok ⟨g, none⟩) => readCommand specs maxWords g rest
    | some (.ok ⟨g, some o⟩) =>
      match rest with
      | [] => .error .wrong
      | value :: rest =>
        if looksLikeOption value then .error .wrong
        else
          match g.give o value with
          | .ok g => readCommand specs maxWords g rest
          | .error s => .error s

/-- Reads the options in front of the name of a command: the name, and what follows it. -/
def readFront (specs : List OptionSpec) (g : Given) :
    List String → Except Stop (String × List String)
  | [] => .error .wrong
  | "--" :: _ => .error .wrong
  | arg :: rest =>
    match readOptions? specs g arg with
    | none => .ok (arg, rest)
    | some (.error s) => .error s
    | some (.ok w) => if w.option.isSome then .error .wrong else readFront specs w.given rest

/-! ## The commands -/

/-- Makes a map of a project. -/
structure MapRequest where
  root : String
  output : Option String
  force : Bool
  include_ : List String
  exclude : List String
  json : Bool
  ignoreFiles : Bool
  deriving DecidableEq, Repr

/-- Exports the code of a project. -/
structure ExportRequest where
  profile : String
  output : Option String
  force : Bool
  deriving DecidableEq, Repr

/-- What a command line asks for. -/
inductive Request where
  | map (r : MapRequest)
  | export_ (r : ExportRequest)
  deriving DecidableEq, Repr

/-- Options that may stand anywhere. -/
def sharedOptions : List OptionSpec :=
  [⟨"verbose", some 'v', .flag⟩, ⟨"help", some 'h', .help⟩]

def frontOptions : List OptionSpec := sharedOptions ++ [⟨"version", some 'V', .version⟩]

def mapOptions : List OptionSpec := sharedOptions ++ [
  ⟨"root", none, .value true⟩, ⟨"output", some 'o', .value true⟩, ⟨"force", some 'f', .flag⟩,
  ⟨"include", none, .values⟩, ⟨"exclude", none, .values⟩, ⟨"json", none, .flag⟩,
  ⟨"gitignore", none, .flag⟩]

def exportOptions : List OptionSpec :=
  sharedOptions ++ [⟨"output", some 'o', .value false⟩, ⟨"force", some 'f', .flag⟩]

/-- What help can be asked for; the commands have no commands of their own. -/
def commandNames : List String := ["map", "export", "help"]

def parse (args : List String) : Except Stop Request := do
  match ← readFront frontOptions {} args with
  | ("map", rest) =>
    let g ← readCommand mapOptions 0 {} rest
    return .map {
      root := (g.value? "root").getD ".", output := g.value? "output", force := g.has "force",
      include_ := g.values "include", exclude := g.values "exclude", json := g.has "json",
      ignoreFiles := g.has "gitignore" }
  | ("export", rest) =>
    let g ← readCommand exportOptions 1 {} rest
    return .export_ {
      profile := g.words.head?.getD "general", output := g.value? "output",
      force := g.has "force" }
  | ("help", []) => throw .help
  | ("help", [name]) => throw (if commandNames.contains name then .help else .wrong)
  | _ => throw .wrong

end CodeAtlas.Command
