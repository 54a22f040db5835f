import DeliveryRules.Fragment.Import
import DeliveryRules.Settings.Basic

/-!
# Setting up a compiler

A compiler knows a schema for each version of rules: the one made from its catalog, for the version
of its settings, and those of a directory with a file for each version, which come first.

* `Compiler.ofCatalog`: with the settings that hold where nothing is set.
* `Compiler.ofSettings`: with settings and the files to read.
-/

namespace DeliveryRules

/-- What is read as a whole. -/
inductive Input where
  | schema
  | catalog
  | document
deriving DecidableEq, Repr

def Input.name : Input → String
  | schema => "schema"
  | catalog => "catalog"
  | document => "document"

inductive SetupError where
  | schema (version : String) (fault : SchemaFault)
  | unlisted (directory : Path) (failure : ReadFailure)
  | unreadable (input : Input) (path : Path) (failure : ReadFailure)
  | malformed (input : Input) (path : Path)

namespace SetupError

def message : SetupError → String
  | schema version fault => s!"invalid schema {version}: {fault.message}"
  | unlisted directory _ => s!"operation failed: list schemas: {directory.text}"
  | unreadable input path _ => s!"operation failed: read {input.name}: {path.text}"
  | malformed input path => s!"operation failed: parse {input.name}: {path.text}"

end SetupError

namespace Registry

/-- The registry that has nothing but the schema made from a catalog. -/
def builtIn (c : Catalog) (version : String) : Except SetupError Registry :=
  (empty.register version c.ruleSchema).mapError (.schema version)

/-- The version whose schema a file holds. -/
def versionOf? (path : Path) : Option String :=
  if path.extension? = some "json" then path.stem? else none

def loadFile (files : Files) (r : Registry) (path : Path) : Except SetupError Registry :=
  match versionOf? path with
  | none => .ok r
  | some version => do
    let text ← (files.read path).mapError (.unreadable .schema path)
    let schema ← (Json.read text).mapError fun _ => .malformed .schema path
    (r.register version schema).mapError (.schema version)

/-- Registers the schemas in a directory, in the order of their paths. -/
def loadDirectory (files : Files) (r : Registry) (directory : Path) :
    Except SetupError Registry := do
  let paths ← (files.list directory).mapError (.unlisted directory)
  paths.foldlM (loadFile files) r

end Registry

structure Compiler extends Workshop where
  /-- The directory in which source files with relative names are. -/
  sourceRoot : Path

namespace Compiler

def ofSettings (s : Settings) (c : Catalog) (files : Files) : Except SetupError Compiler := do
  let registry ← Registry.builtIn c s.ruleFormat
  let registry ← match s.schemaDirectory with
    | some directory => registry.loadDirectory files directory
    | none => pure registry
  return {
    catalog := c
    registry := registry
    files := files
    ruleFormat := s.ruleFormat
    excerptWidth := s.excerptWidth
    sourceRoot := s.sourceRoot }

def ofCatalog (c : Catalog) (files : Files) : Except SetupError Compiler :=
  ofSettings {} c files

end Compiler

end DeliveryRules
