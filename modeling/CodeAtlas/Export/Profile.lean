/-
Export profiles.

A profile says which parts of a large project go into an export. Ten profiles are
built in; each package that is found in the project is one more.
-/
import CodeAtlas.Text.Basic

set_option autoImplicit false

namespace CodeAtlas

/-- What part of a large project is exported. -/
inductive Profile where
  | general | mobile | community | enterprise | cli | cloud | docs | build | tests | all
  /-- a package of the project, by its directory -/
  | package (name : String)
  deriving DecidableEq, Repr, Inhabited

namespace Profile

/-- The profiles that are always there. -/
def builtin : List Profile :=
  [.general, .mobile, .community, .enterprise, .cli, .cloud, .docs, .build, .tests, .all]

def name : Profile → String
  | .general => "general"
  | .mobile => "mobile"
  | .community => "community"
  | .enterprise => "enterprise"
  | .cli => "cli"
  | .cloud => "cloud"
  | .docs => "docs"
  | .build => "build"
  | .tests => "tests"
  | .all => "all"
  | .package p => p

/-- The profile with a name; a package only if it is one of those found. -/
def ofName? (s : String) (packages : List String) : Option Profile :=
  match builtin.find? (·.name == s) with
  | some p => some p
  | none => if packages.contains s then some (.package s) else none

def description : Profile → String
  | .general => "Основные компоненты без документации и тестов"
  | .mobile => "Мобильная часть (neira-mobile-core + neira-mobile-bff)"
  | .community => "Открытая экосистема (neira-core + neira-apps)"
  | .enterprise => "Коммерческая часть (neira-enterprise)"
  | .cli => "Инструменты разработчика (neira-cli-mcp)"
  | .cloud => "Облачные сервисы (neira-cloud-backend)"
  | .docs => "Документация (neira-docs/docs + README файлы)"
  | .build => "Конфигурация сборки и CI"
  | .tests => "Тесты и вспомогательные скрипты"
  | .all => "Максимально полный дамп"
  | .package _ => "Динамический пакет"

def testGlobs : List String := ["*tests*", "*test.ts", "*spec.ts"]

def includes : Profile → List String
  | .general => [
      "package.json", "README.md", "CHANGELOG.md", "ROADMAP.md",
      "neira-mobile-core/package.json", "neira-mobile-core/packages/**",
      "neira-core/package.json", "neira-core/packages/**",
      "neira-enterprise/package.json", "neira-enterprise/packages/**",
      "neira-cli-mcp/package.json", "neira-cli-mcp/src/**",
      "neira-cloud-backend/package.json", "neira-cloud-backend/services/**"]
  | .mobile => ["neira-mobile-core/**"]
  | .community => ["neira-core/**", "neira-apps/**"]
  | .enterprise => ["neira-enterprise/**"]
  | .cli => ["neira-cli-mcp/**"]
  | .cloud => ["neira-cloud-backend/**"]
  | .docs => ["neira-docs/docs/**", "*.md", "**/README*", "*.mmd", ".neira/docs/**"]
  | .build => [
      "package.json", "turbo.json", "**/package.json",
      "*.config.js", "*.config.ts", "*.config.json",
      ".github/workflows/**", "**/scripts/**",
      "tsconfig.json", "**/tsconfig.json"]
  | .tests => ["**/tests/**", "*test.ts", "*spec.ts", "**/scripts/**", "**/__tests__/**"]
  | .all => []
  | .package p => [p ++ "/**"]

/-- The globs that a profile excludes on top of the common ones. -/
def excludes : Profile → List String
  | .general => testGlobs ++ [".github/*", "*docs*", "neira-docs/*"]
  | .mobile | .community | .enterprise | .cli | .cloud => testGlobs
  | .docs => ["*node_modules*"]
  | .build | .tests | .package _ => []
  | .all => ["neira-core/packages/apps/librechat-ui/src/**"]

end Profile

/-- Excluded from every export of a large project. -/
def commonExcludes : List String := [
  "**/node_modules/**", "**/dist/**", "**/out/**", "**/build/**", "**/.next/**",
  "**/.turbo/**", "**/coverage/**", "*.log", "*.map", "*.lock",
  "*.DS_Store", "*.idea*", "*.vscode*", ".git/**",
  "*/.neira/export_code/*",
  "**/neira-enterprise/platform/**",
  "**/logs/**", "**/tmp/**", "**/temp/**", "**/.cache/**",
  "**/__tests__/**", "**/spec/**", "**/test/**", "**/*test*/**",
  "**/neira-apps/examples/**", "**/fixtures/**",
  "**/neira-docs/blog/**", "**/neira-docs/src/**", "**/neira-docs/static/**",
  "**/.docusaurus/**",
  "*.png", "*.jpg", "*.jpeg", "*.gif", "*.bmp", "*.webp", "*.svg", "*.ico", "*.icns",
  "*.wav", "*.mp3", "*.mp4", "*.avi", "*.mov", "*.css", "*.dll", "*.bin", "*.dmg",
  "*.pdf", "*.exe", "*.ttf", "*.woff", "*.woff2", "*.otf",
  "**/public/**", "**/drizzle/**", "**/storybook-static/**",
  "*.backup", "*.yml", "*.yaml", "**/*archive*/**",
  "*package-lock.json", "*yarn.lock", "*.pnp.cjs", "*.pnp.js", "*.pnp.loader.mjs",
  "**/.yarn/**", "**/install-state.gz",
  "*.tsbuildinfo", "*.tgz", "*.tar.gz",
  "*.db", "*.sqlite", "*.sqlite3",
  "**/LICENSE", "**/LICENSE.*", "**/*.LICENSE", "**/COPYING", "**/COPYRIGHT",
  "**/scripts/**"]

/-- Excluded from the export of any other project. -/
def basicExcludes : List String := [
  "node_modules", "dist", ".git", "*.log", "*.map", "*.lock", "*.DS_Store",
  ".idea", ".vscode", "coverage", ".next", "build", "out", ".turbo",
  "tmp", "temp", ".cache", "*.tsbuildinfo", "*.tgz", "*.tar.gz"]

/-- The globs in a list of further excludes: its lines, without blank ones and comments. -/
def extraExcludes (text : List Char) : List String :=
  (((Text.lines text).map Text.trim).filter fun l => !l.isEmpty && l.head? ≠ some '#').map
    String.ofList

end CodeAtlas
