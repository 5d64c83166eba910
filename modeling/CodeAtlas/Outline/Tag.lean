/-
Tags: the finite choices in the records.

Each tag has a written name, the one that appears in data, and `all` lists the
choices, so that reading a name is a search in that list. Some tags are also shown
in reports, under a title of their own.
-/
import CodeAtlas.Text.Basic
import CodeAtlas.Text.Case

set_option autoImplicit false

namespace CodeAtlas

/-- A finite type whose members have written names. -/
class Tag (α : Type) where
  all : List α
  name : α → String

/-- The member with the given name. -/
def Tag.ofName? {α : Type} [Tag α] (s : String) : Option α :=
  (Tag.all : List α).find? fun a => Tag.name a == s

/-! ## Source families -/

/-- How a language marks the extent of its blocks. -/
inductive Family where
  /-- blocks stand between curly brackets -/
  | brace
  /-- blocks are indented -/
  | indent
  deriving DecidableEq, Repr, Inhabited

instance : Tag Family where
  all := [.brace, .indent]
  name
    | .brace => "brace"
    | .indent => "indent"

/-- The family of a file extension, capital letters or not. -/
def Family.ofExtension? (ext : String) : Option Family :=
  let low := String.ofList (Text.lowerAscii ext.toList)
  if ["ts", "tsx", "js", "jsx", "mjs", "cjs"].contains low then some .brace
  else if low == "py" then some .indent
  else none

/-! ## Tags of declarations -/

/-- What kind of function a header declares. -/
inductive FunctionKind where
  | function | method | arrow | async | generator
  deriving DecidableEq, Repr, Inhabited

instance : Tag FunctionKind where
  all := [.function, .method, .arrow, .async, .generator]
  name
    | .function => "function"
    | .method => "method"
    | .arrow => "arrow"
    | .async => "async"
    | .generator => "generator"

/-- Who may use a member. -/
inductive Visibility where
  | everyone | owner | heirs
  deriving DecidableEq, Repr, Inhabited

instance : Tag Visibility where
  all := [.everyone, .owner, .heirs]
  name
    | .everyone => "public"
    | .owner => "private"
    | .heirs => "protected"

/-- The visibility that a word names, capital letters or not, blanks apart. -/
def Visibility.ofWord? (w : List Char) : Option Visibility :=
  Tag.ofName? (String.ofList (Text.lowerAscii (Text.trim w)))

/-- What a module takes from another one comes from the project, from elsewhere, or
with the platform. -/
inductive ImportOrigin where
  | internal | external | builtin
  deriving DecidableEq, Repr, Inhabited

instance : Tag ImportOrigin where
  all := [.internal, .external, .builtin]
  name
    | .internal => "internal"
    | .external => "external"
    | .builtin => "builtin"

/-- What kind of thing leaves a module. -/
inductive ExportKind where
  | function | classType | interface | type | constant | default
  /-- an entry of an export list -/
  | named
  deriving DecidableEq, Repr

instance : Inhabited ExportKind := ⟨.constant⟩

instance : Tag ExportKind where
  all := [.function, .classType, .interface, .type, .constant, .default, .named]
  name
    | .function => "function"
    | .classType => "class"
    | .interface => "interface"
    | .type => "type"
    | .constant => "constant"
    | .default => "default"
    | .named => "named"

/-- The kind that the keyword of a declaration stands for, stars behind it apart. -/
def ExportKind.ofKeyword (kw : List Char) : ExportKind :=
  let kw := String.ofList (Text.dropEndWhile (· = '*') kw)
  if kw == "function" then .function
  else if kw == "class" then .classType
  else if kw == "interface" then .interface
  else if ["type", "enum", "namespace"].contains kw then .type
  else .constant

/-- What kind of type a header declares. -/
inductive TypeKind where
  | type | enum | namespace
  deriving DecidableEq, Repr, Inhabited

instance : Tag TypeKind where
  all := [.type, .enum, .namespace]
  name
    | .type => "type"
    | .enum => "enum"
    | .namespace => "namespace"

/-! ## Tags of classes and files -/

/-- What a class is for, as its words suggest. -/
inductive DesignPattern where
  | singleton | factory | observer | strategy | decorator | adapter | repository | service
  | standardClass
  deriving DecidableEq, Repr

instance : Inhabited DesignPattern := ⟨.standardClass⟩

instance : Tag DesignPattern where
  all := [.singleton, .factory, .observer, .strategy, .decorator, .adapter, .repository,
    .service, .standardClass]
  name
    | .singleton => "singleton"
    | .factory => "factory"
    | .observer => "observer"
    | .strategy => "strategy"
    | .decorator => "decorator"
    | .adapter => "adapter"
    | .repository => "repository"
    | .service => "service"
    | .standardClass => "standard_class"

def DesignPattern.title : DesignPattern → String
  | .singleton => "Singleton"
  | .factory => "Factory"
  | .observer => "Observer"
  | .strategy => "Strategy"
  | .decorator => "Decorator"
  | .adapter => "Adapter"
  | .repository => "Repository"
  | .service => "Service"
  | .standardClass => "Standard Class"

/-- What a file is for. -/
inductive Purpose where
  | testing | configuration | typesAndInterfaces | utilities | api | components | services
  | models | controllers | middleware | mainModule | classes | general
  deriving DecidableEq, Repr

instance : Inhabited Purpose := ⟨.general⟩

instance : Tag Purpose where
  all := [.testing, .configuration, .typesAndInterfaces, .utilities, .api, .components,
    .services, .models, .controllers, .middleware, .mainModule, .classes, .general]
  name
    | .testing => "testing"
    | .configuration => "configuration"
    | .typesAndInterfaces => "types_and_interfaces"
    | .utilities => "utilities"
    | .api => "api"
    | .components => "components"
    | .services => "services"
    | .models => "models"
    | .controllers => "controllers"
    | .middleware => "middleware"
    | .mainModule => "main_module"
    | .classes => "classes"
    | .general => "general"

def Purpose.title : Purpose → String
  | .testing => "Тестирование"
  | .configuration => "Конфигурация"
  | .typesAndInterfaces => "Типы и интерфейсы"
  | .utilities => "Утилиты"
  | .api => "API"
  | .components => "Компоненты"
  | .services => "Сервисы"
  | .models => "Модели данных"
  | .controllers => "Контроллеры"
  | .middleware => "Промежуточное ПО"
  | .mainModule => "Основной модуль"
  | .classes => "Классы"
  | .general => "Общий код"

end CodeAtlas
