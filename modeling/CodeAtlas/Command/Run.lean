/-
Running commands.

A command reads and changes the file system, writes lines for the user and lines for a
log, and ends well or with an error. The error names what was being done and, below it,
what went wrong.
-/
import CodeAtlas.Command.Arguments
import CodeAtlas.Export.Run
import CodeAtlas.Project
import CodeAtlas.Report.Save
import CodeAtlas.Report.Text

set_option autoImplicit false

namespace CodeAtlas.Command

/-! ## Effects -/

/-- What a command works on: the file system, and what was written so far. -/
structure Session where
  tree : Tree
  output : String := ""
  log : String := ""

/-- What was being done when an error occurred, and the causes from the outside in. -/
structure Failure where
  context : String
  causes : List String
  deriving DecidableEq, Repr

/-- A command that can fail; what it changed before stays. -/
abbrev Action := ExceptT Failure (StateM Session)

/-- Writes a line for the user. -/
def say (line : String) : Action Unit :=
  modify fun s => { s with output := s.output ++ line ++ "\n" }

def warn (text : String) : Action Unit :=
  modify fun s => { s with log := s.log ++ "WARN " ++ text ++ "\n" }

def tree : Action Tree := do return (← get).tree

/-- The value, or an error that occurred in a context. -/
def within {ε α : Type} (context : String) (causes : ε → List String) (r : Except ε α) : Action α :=
  match r with
  | .ok a => return a
  | .error e => throw ⟨context, causes e⟩

/-- Changes the file system; the change stays where it ends in an error. -/
def change {α : Type} (f : Tree → Tree × α) : Action α := do
  let (t, a) := f (← tree)
  modify fun s => { s with tree := t }
  return a

/-- A text on several lines, the later ones behind an indentation. -/
def indented (indent text : String) : String :=
  ("\n" ++ indent).intercalate ((text.toList.splitOn '\n').map String.ofList)

/-- The text of an error: a single cause stands behind four spaces, several are numbered. -/
def Failure.text (f : Failure) : String :=
  let causes := match f.causes with
    | [c] => ["    " ++ indented "    " c]
    | cs => cs.mapIdx fun i c => "    " ++ toString i ++ ": " ++ indented "       " c
  let shown := "\n".intercalate causes
  "Error: " ++ f.context ++ (if f.causes.isEmpty then "" else "\n\nCaused by:\n" ++ shown) ++ "\n"

/-! ## Making a map -/

/-- What the options of the command line set. -/
def MapRequest.settings (r : MapRequest) : Settings :=
  { include_ := if r.include_.isEmpty then none else some r.include_,
    exclude := if r.exclude.isEmpty then none else some r.exclude,
    output := r.output,
    ignoreFiles := if r.ignoreFiles then some true else none }

/-- Warns of what the manifest lacks; a manifest that cannot be read is passed over. -/
def checkManifest (root : String) : Action Unit := do
  match Manifest.load (← tree) root with
  | .ok (some m) =>
    for key in m.missing do warn ("manifest is missing metadata key=" ++ Json.quote key)
  | .ok none => return
  | .error e => warn ("manifest ignored error=" ++ e.message)

/-- Warns of all that a scan passes over. -/
def warnOf (c : Corpus) : Action Unit := do
  for (text, e) in c.badGlobs do
    warn ("invalid glob pattern ignored pattern=" ++ text ++ " error=" ++ e.message)
  for s in c.skipped do
    warn ("skipping file path=" ++ s.path ++ " reason=" ++ s.reason.message)

/-- The name of the map as JSON where no setting gives one. -/
def defaultJsonOutput : String := "REPOSITORY_MAP.json"

/-- Where the map goes, seen from the directory `cwd`. -/
def mapPath (settings : Settings) (json : Bool) (cwd : String) : String :=
  if json && settings.output.isNone then PathName.join cwd defaultJsonOutput
  else settings.outputPath cwd

def sayKept (path : String) : Action Unit :=
  say ("Файл " ++ path ++ " уже существует. Используйте --force для перезаписи.")

/-- A size in units of 1024 bytes. -/
def kilobytes (bytes : Nat) : String :=
  Decimal.onePlace (Decimal.toFiftyThreeBits bytes) 1024 ++ " KB"

def sayMap (path : String) (bytes lines : Nat) (c : Corpus) : Action Unit := do
  let t := Totals.of c.outlines
  say "✅ Карта репозитория сгенерирована успешно!"
  say "📊 Результат:"
  say ("   Файл: " ++ path)
  say ("   Размер: " ++ kilobytes bytes)
  say ("   Строк: " ++ toString lines)
  say ("   Функций: " ++ toString t.functions.all)
  say ("   Классов: " ++ toString t.classes.all)
  say ("   Интерфейсов: " ++ toString t.interfaces.all)
  say ("   Типов: " ++ toString t.types.all)
  say ("   Констант: " ++ toString t.constants.all)
  unless c.skipped.isEmpty do
    say ("   Пропущено файлов: " ++ toString c.skipped.length)

/-- Makes a map. The directory `cwd` is the current one, and `stamp` the time. -/
def runMap (cwd stamp : String) (r : MapRequest) : Action Unit := do
  let root := PathName.join cwd r.root
  let loaded ← within ("loading config under " ++ root) ProjectError.causes
    (Settings.load (← tree) root)
  let settings := loaded.overlay r.settings
  checkManifest root
  say "🗺️  Генерация карты репозитория..."
  let corpus ← within ("scanning " ++ root) PathError.causes
    (Corpus.scan (← tree) cwd root settings.scanOptions)
  warnOf corpus
  say ("Найдено файлов: " ++ toString corpus.outlines.length)
  let path := mapPath settings r.json cwd
  let text := if r.json then outlinesText corpus.outlines else Report.render corpus.outlines stamp
  let saved ← change fun t => Report.save t path text r.force
  match ← within ("writing " ++ path) PathError.causes saved with
  | .alreadyThere => sayKept path
  | .written bytes lines => sayMap path bytes lines corpus

/-! ## Exporting -/

def sayTarget : ExportTarget → Action Unit
  | .superProject p _ => do
    say ("   Профиль: " ++ p.name)
    say ("   Описание: " ++ p.description)
  | .currentProject name => do
    say "⚠️  NEIRA Super App не найден, экспортируем текущий проект"
    say ("   Проект: " ++ name)

def sayPlan (plan : ExportPlan) : Action Unit := do
  say "🚀 Запуск экспорта кода..."
  say "📝 Параметры экспорта:"
  sayTarget plan.target
  say ("   Выходной файл: " ++ plan.outputFile)
  unless plan.extraExcludes.isEmpty do
    say ("   Дополнительные исключения: " ++ toString plan.extraExcludes.length ++
      " правил из " ++ exportIgnoreName)

/-- Says how the tool can be installed. -/
def sayInstall (tool : String) : Action Unit := do
  say ("\n💡 Способы установки " ++ tool ++ ":")
  say ("   npm install -g " ++ tool)
  say ("   brew install " ++ tool ++ " (macOS)")

/-- Says which parts of a super project can be exported on their own. -/
def sayPackages : ExportTarget → Action Unit
  | .superProject .general packages => do
    say "\n💡 Для экспорта отдельных компонентов используйте:"
    for p in packages do say ("   repomap export " ++ p)
  | _ => return

/-- Exports the code. -/
def runExport (tool : Tool) (cwd : String) (now : Clock) (r : ExportRequest) : Action Unit := do
  let plan ← within ("preparing export profile \x60" ++ r.profile ++ "\x60") ExportError.causes
    (ExportPlan.resolve (← tree) cwd r.profile r.output now)
  sayPlan plan
  match ← change fun t => plan.run t tool r.force with
  | .error (.toolMissing name) =>
    sayInstall name
    throw ⟨"export aborted", ExportError.causes (.toolMissing name)⟩
  | .error e => throw ⟨"export failed", e.causes⟩
  | .ok (.alreadyThere path) => sayKept path
  | .ok (.written path thousands) =>
    say "✅ Экспорт завершен успешно!"
    say "📊 Результат:"
    say ("   Размер: ~" ++ toString thousands ++ "k токенов")
    say ("   Файл: " ++ path)
    sayPackages plan.target

/-! ## The program -/

def versionText : String := "repomap 0.3.0\n"

def helpText : String :=
  "Usage: repomap [-v] map [--root PATH] [-o PATH] [-f] [--include GLOB] [--exclude GLOB]" ++
    " [--json] [--gitignore]\n       repomap [-v] export [PROFILE] [-o NAME] [-f]\n"

/-- How the program ends. -/
structure Outcome where
  tree : Tree
  code : Nat
  output : String
  log : String

/-- The end of a command. -/
def Outcome.ofAction (t : Tree) (a : Action Unit) : Outcome :=
  match (ExceptT.run a).run { tree := t } with
  | (.ok _, s) => ⟨s.tree, 0, s.output, s.log⟩
  | (.error f, s) => ⟨s.tree, 1, s.output, s.log ++ f.text⟩

/-- Runs a command line in the directory `cwd` at a time, which is also given as the
`stamp` of reports. -/
def run (tool : Tool) (t : Tree) (cwd stamp : String) (now : Clock) (args : List String) :
    Outcome :=
  match parse args with
  | .error .wrong => ⟨t, 2, "", helpText⟩
  | .error .version => ⟨t, 0, versionText, ""⟩
  | .error .help => ⟨t, 0, helpText, ""⟩
  | .ok (.map r) => Outcome.ofAction t (runMap cwd stamp r)
  | .ok (.export_ r) => Outcome.ofAction t (runExport tool cwd now r)

end CodeAtlas.Command
