/-
Word lists.

The labels on functions, classes and files are chosen by the words that occur in
them. Where a table is searched for the first hit, its order is part of its meaning.
-/
import CodeAtlas.Outline.Tag

set_option autoImplicit false

namespace CodeAtlas.Vocabulary

/-! ## Words in bodies -/

/-- Verbs of business logic, in the order in which one line reports them. -/
def businessVerbs : List String := [
  "validate", "check", "verify", "process", "calculate", "compute", "transform",
  "convert", "format", "parse", "serialize", "deserialize", "save", "load",
  "create", "update", "delete", "find", "search", "filter", "sort", "group",
  "aggregate", "sum", "count", "average", "authenticate", "authorize",
  "encrypt", "decrypt", "hash", "sign", "send", "receive", "notify", "log",
  "audit", "backup", "restore"]

/-- What is reported of a body without a business verb. -/
def generalLogic : String := "general logic"

/-- Keywords that may stand in front of a round bracket and are never calls. -/
def callExcludes : List String :=
  ["if", "for", "while", "switch", "catch", "return", "function", "elif", "except", "with"]

/-- Words that never name a method or a property. -/
def controlWords : List String := [
  "if", "for", "while", "switch", "catch", "return", "function", "elif",
  "except", "with", "typeof", "await", "new", "super", "print"]

def inputWords : List String := ["read", "input", "get"]
def outputWords : List String := ["write", "output", "return"]
def transformWords : List String := ["map", "filter", "reduce"]
def sideEffectWords : List String := ["console.log", "fs.write", "db.insert", "print("]
def structureWords : List String := ["array", "object", "map", "set"]

/-- Words of a fallback. -/
def fallbackWords : List String := ["fallback", "default", "else"]

/-- Signs of logging, each with the mark that is recorded. -/
def loggingSigns : List (String × String) :=
  [("console.", "console"), ("logger", "logger"), ("logging.", "logging"), ("log(", "log")]

/-- Signs of an optimisation, each with the mark that is recorded. -/
def optimizationSigns : List (String × String) :=
  [("cache", "caching"), ("memoize", "memoization"), ("optimize", "optimization")]

/-! ## Words in classes and files -/

/-- The words that suggest a design pattern; the first hit counts. -/
def designPatterns : List (List String × DesignPattern) := [
  (["singleton"], .singleton),
  (["factory", "create"], .factory),
  (["observer", "subscribe", "emit"], .observer),
  (["strategy", "algorithm"], .strategy),
  (["decorator", "@"], .decorator),
  (["adapter", "adapt"], .adapter),
  (["repository", "data access"], .repository),
  (["service", "business logic"], .service)]

/-- The words in a file name that tell the purpose of the file; the first hit counts. -/
def purposesByName : List (List String × Purpose) := [
  (["test", "spec"], .testing),
  (["config"], .configuration),
  (["types", "interfaces"], .typesAndInterfaces),
  (["utils", "helpers"], .utilities),
  (["api", "routes"], .api),
  (["components"], .components),
  (["services"], .services),
  (["models"], .models),
  (["controllers"], .controllers),
  (["middleware"], .middleware)]

/-- The words that suggest a business domain; the first hit counts. -/
def businessDomains : List (List String × String) := [
  (["user", "auth", "login"], "Authentication & Authorization"),
  (["payment", "billing", "invoice"], "Billing & Payments"),
  (["order", "cart", "purchase"], "Orders & Shopping"),
  (["product", "catalog", "inventory"], "Product Management"),
  (["notification", "email", "sms"], "Notifications"),
  (["report", "analytics", "dashboard"], "Reporting & Analytics"),
  (["file", "upload", "download"], "File Management")]

/-- The domain of a file in which none of the words occurs. -/
def generalDomain : String := "General Business Logic"

/-- The directory names that tell an architectural layer; the first hit counts. -/
def layers : List (List String × String) := [
  (["controllers", "routes"], "Presentation Layer"),
  (["services", "business"], "Business Logic Layer"),
  (["models", "entities"], "Data Layer"),
  (["middleware", "interceptors"], "Middleware Layer"),
  (["utils", "helpers"], "Utility Layer"),
  (["config", "settings"], "Configuration Layer")]

/-- The layer of a file in none of these directories. -/
def generalLayer : String := "General Layer"

def configWords : List String := ["config", "settings", "dotenv", ".env"]

def secretWords : List String :=
  ["secret", "password", "token", "api_key", "apikey", "private_key"]

def validationWords : List String := ["validate", "schema", "required", "zod", "joi", "pydantic"]

/-! ## Modules that come with a platform -/

/-- The modules that come with the platform of the brace family. -/
def nodeModules : List String := [
  "assert", "buffer", "child_process", "cluster", "crypto", "dgram", "dns",
  "events", "fs", "http", "http2", "https", "net", "os", "path", "process",
  "querystring", "readline", "stream", "string_decoder", "timers", "tls",
  "tty", "url", "util", "v8", "vm", "worker_threads", "zlib"]

/-- The modules that come with the platform of the indentation family. -/
def pythonModules : List String := [
  "abc", "argparse", "asyncio", "base64", "collections", "contextlib", "copy",
  "csv", "dataclasses", "datetime", "enum", "functools", "glob", "hashlib",
  "http", "importlib", "inspect", "io", "itertools", "json", "logging", "math",
  "os", "pathlib", "pickle", "random", "re", "shutil", "socket", "sqlite3",
  "string", "subprocess", "sys", "tempfile", "threading", "time", "typing",
  "unittest", "urllib", "uuid"]

end CodeAtlas.Vocabulary
