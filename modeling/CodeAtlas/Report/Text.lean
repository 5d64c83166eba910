/-
The report.

The report has a head with totals, one section for each file, grouped by directory,
the totals once more, and the names that leave each file. It depends on nothing but
the outlines and the time that is put at its end.
-/
import CodeAtlas.Decimal.Fixed
import CodeAtlas.Report.Signature
import CodeAtlas.Report.Totals

set_option autoImplicit false

namespace CodeAtlas.Report

def line (s : String) : String := s ++ "\n"

def paragraph (s : String) : String := s ++ "\n\n"

def code (s : String) : String := "\x60" ++ s ++ "\x60"

/-! ## Totals -/

/-- One line of the totals. -/
def tallyLine (label : String) (t : Tally) : String :=
  line ("- " ++ label ++ ": " ++ toString t.all ++ " (экспортировано: " ++
    toString t.exported ++ ")")

/-- The lines of the totals that both parts show. -/
def tallyLines (t : Totals) : String :=
  tallyLine "Функций" t.functions ++ tallyLine "Классов" t.classes ++
    tallyLine "Интерфейсов" t.interfaces ++ tallyLine "Типов" t.types ++
    tallyLine "Констант" t.constants

def filesLine (t : Totals) : String := line ("- Всего файлов: " ++ toString t.files)

def sizeLine (t : Totals) : String :=
  line ("- Общий размер: " ++ Decimal.onePlace (Decimal.toFiftyThreeBits t.bytes) 1024 ++ " KB")

def head (os : List Outline) : String :=
  let t := Totals.of os
  paragraph "# Карта репозитория" ++
    paragraph "*Сгенерировано автоматически*" ++
    paragraph
      "> Поддерживаются TypeScript/JavaScript (.ts, .tsx, .js, .jsx) и Python (.py) файлы" ++
    paragraph "## 🏗️ Архитектурный обзор" ++
    paragraph "### 📊 Общая статистика" ++
    filesLine t ++ sizeLine t ++ tallyLines t ++ line ""

def purposes (os : List Outline) : String :=
  paragraph "### 🎯 Назначения файлов" ++
    String.join ((purposeCounts os).map fun (p, n) =>
      line ("**" ++ p.title ++ ":** " ++ toString n ++ " файлов")) ++
    line ""

/-! ## One file -/

/-- A shown declaration, its description on one line, and its line number. -/
def entry (bullet shown : String) (description : Option String) (number : Option Nat) : String :=
  line (bullet ++ code shown ++
    ((description.map fun d => " - " ++ String.ofList (Text.oneLine d.toList)).getD "") ++
    ((number.map fun n => " (строка " ++ toString n ++ ")").getD ""))

def item (shown : String) (description : Option String) (number : Nat) : String :=
  entry "- " shown description (some number)

/-- An entry below another one. -/
def subitem (shown : String) (description : Option String) (number : Option Nat) : String :=
  entry "  - " shown description number

/-- A titled part with the items, or nothing without any. -/
def part {α : Type} (title : String) (xs : List α) (f : α → String) (close : String) : String :=
  if xs.isEmpty then "" else paragraph ("**" ++ title ++ ":**") ++ String.join (xs.map f) ++ close

def labels (o : Outline) : String :=
  "*Назначение: " ++ o.purpose.title ++ " · Домен: " ++ o.domain ++ " · Слой: " ++ o.layer ++
    " · Сложность: " ++ toString o.complexity ++
    listSuffix " · Переменные окружения: " o.configuration.environment ++ "*"

def classEntry (c : ClassRecord) : String :=
  item c.shown c.description c.line ++
    String.join (c.methods.map fun m => subitem m.shownInClass m.description (some m.line)) ++
    String.join (c.properties.map fun p => subitem p.shown p.description none) ++ line ""

def interfaceEntry (i : InterfaceRecord) : String :=
  item i.shown i.description i.line ++
    String.join (i.properties.map fun p => subitem p.shown p.description none) ++
    String.join (i.methods.map fun m => subitem m.signature m.description none) ++ line ""

def fileSection (o : Outline) : String :=
  paragraph ("#### 📄 " ++ o.fileName) ++
    paragraph (labels o) ++
    part "Функции" o.functions
      (fun f => item (onlyIf f.exported "export " ++ f.signature) f.description f.line) (line "") ++
    part "Классы" o.classes classEntry "" ++
    part "Интерфейсы" o.interfaces interfaceEntry "" ++
    part "Типы" o.types (fun t => item t.shown t.description t.line) (line "") ++
    part "Константы" o.constants (fun c => item c.shown c.description c.line) (line "")

/-- The title of a directory; the root has one of its own. -/
def directoryTitle (dir : String) : String := if dir.isEmpty then "Корень проекта" else dir

def directorySection (dir : String) (os : List Outline) : String :=
  paragraph ("### 📂 " ++ directoryTitle dir) ++ String.join (os.map fileSection)

/-- The sections of all files. -/
def structure_ (os : List Outline) : String :=
  paragraph "## 📁 Структура" ++
    String.join ((byDirectory os).map fun (dir, group) => directorySection dir group)

/-! ## The end -/

/-- The totals once more, with the complexity. -/
def statistics (os : List Outline) : String :=
  let t := Totals.of os
  paragraph "## 📊 Статистика" ++ filesLine t ++ tallyLines t ++
    line ("- Суммарная сложность: " ++ toString t.complexity) ++ line ""

/-- The names that leave a file, if there are any. -/
def exportsOf (o : Outline) : String :=
  let names := o.exportedNames
  if names.isEmpty then ""
  else
    line ("### " ++ o.path) ++ String.join (names.map fun n => line ("- " ++ code n)) ++ line ""

/-- The names that leave each file. -/
def exports (os : List Outline) : String :=
  paragraph "## 🔗 Основные экспорты" ++ String.join (os.map exportsOf)

/-- The closing lines; `stamp` is the time of the report. -/
def foot (stamp : String) : String :=
  line "---" ++ line ("*Карта сгенерирована: " ++ stamp ++ "*")

def render (os : List Outline) (stamp : String) : String :=
  head os ++ purposes os ++ structure_ os ++ statistics os ++ exports os ++ foot stamp

end CodeAtlas.Report
