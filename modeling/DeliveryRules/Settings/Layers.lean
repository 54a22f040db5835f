import DeliveryRules.Files
import DeliveryRules.Settings.Basic
import DeliveryRules.Settings.Expansion
import DeliveryRules.Toml.Document
import DeliveryRules.Toml.Printer

/-!
# Layers of settings

Settings come from a file of the user, a file of the project and the environment. A later layer
counts where it says something; what none of them says is as in `Settings`.

* `Layer`: what one layer says. `Settings.under` lays it over settings.
* `Layer.ofText`: what a file says. `Layer.anchored` sees its relative paths from the directory of
  the file.
* `Layer.ofEnvironment`: what the environment says.
* `Settings.load`: all layers together.
* `Settings.text`: settings as a file.
-/

namespace DeliveryRules

inductive SettingsError where
  | unreadable (path : Path) (failure : ReadFailure)
  | malformed (path : Path) (error : TomlError)
  | negativeWidth (n : Int)

namespace SettingsError

def message : SettingsError → String
  | unreadable path failure => s!"read {path.text}: {failure.message}"
  | malformed path error => s!"parse {path.text}: {error.message}"
  | negativeWidth n => s!"excerpt_width must be non-negative, got {n}"

end SettingsError

structure Layer where
  ruleFormat : Option String := none
  schemaDirectory : Option Path := none
  catalog : Option Path := none
  sourceRoot : Option Path := none
  excerptWidth : Option Nat := none

/-- Settings with a layer over them. -/
def Settings.under (s : Settings) (l : Layer) : Settings where
  ruleFormat := l.ruleFormat.getD s.ruleFormat
  schemaDirectory := l.schemaDirectory.or s.schemaDirectory
  catalog := l.catalog.or s.catalog
  sourceRoot := l.sourceRoot.getD s.sourceRoot
  excerptWidth := l.excerptWidth.getD s.excerptWidth

namespace Layer

private def path (v : Toml) : Except TomlMismatch (Option Path) :=
  (v.readString "path string").map fun s => some ⟨s⟩

/-- A layer with one more member of a file. Members that are no settings do not matter. -/
def put (l : Layer) (name : String) (v : Toml) : Except TomlMismatch Layer :=
  match name with
  | "rule_format" => do return { l with ruleFormat := some (← v.readString "a string") }
  | "schema_dir" => do return { l with schemaDirectory := ← path v }
  | "catalog" => do return { l with catalog := ← path v }
  | "source_root" => do return { l with sourceRoot := ← path v }
  | "excerpt_width" => do return { l with excerptWidth := some (← v.readCount) }
  | _ => .ok l

/-- What a file says. -/
def ofText (text : String) : Except TomlError Layer := do
  let d ← TomlDocument.read text
  d.members.foldlM (fun l m => (l.put m.1 m.2).mapError (d.mismatch m.1)) {}

/-- Expands the paths of a file and sees the relative ones from its directory. -/
def anchored (e : Environment) (directory : Path) (l : Layer) : Layer :=
  let anchor (p : Path) : Path := directory.join (p.expanded e)
  { l with
    schemaDirectory := l.schemaDirectory.map anchor
    catalog := l.catalog.map anchor
    sourceRoot := l.sourceRoot.map anchor }

/-- Whether there is no file, rather than one that cannot be read. -/
def isMissing (failure : ReadFailure) : Bool :=
  [.noEntry, .noSuchFile, .notDirectory, .nameTooLong, .nulInPath].contains failure

/-- What a file says. One that is not there says nothing. -/
def ofFile (files : Files) (e : Environment) (directory path : Path) :
    Except SettingsError Layer :=
  match files.read path with
  | .error failure => if isMissing failure then .ok {} else .error (.unreadable path failure)
  | .ok text => ((ofText text).mapError (.malformed path)).map (anchored e directory)

/-! ## The environment -/

private def lowered (s : String) : String := s.map Char.toLower

/-- What the names of settings start with in the environment, in any case. -/
def environmentMark : String := "rulecraft__"

/-- The value of a setting in the environment. -/
def inEnvironment? (e : Environment) (name : String) : Option String :=
  Environment.find? (e.map fun v => (lowered v.1, v.2)) (environmentMark ++ name)

/-- Digits, perhaps with a sign, that fit 64 bits. -/
def signedText? (text : List Char) : Option Int :=
  let (negative, digits) := match text with
    | '-' :: ds => (true, ds)
    | '+' :: ds => (false, ds)
    | ds => (false, ds)
  if digits.isEmpty || !digits.all Char.isDigit then none
  else
    let n := digits.foldl (fun n c => 10 * n + (c.toNat - '0'.toNat)) 0
    if negative then if n ≤ Nat.pow 2 63 then some (-(n : Int)) else none
    else if n < Nat.pow 2 63 then some n
    else none

/-- A number as text; words for yes count as one, words for no as zero. -/
def integerText? (text : String) : Option Int :=
  let word := lowered text
  if ["true", "on", "yes"].contains word then some 1
  else if ["false", "off", "no"].contains word then some 0
  else signedText? text.toList

/-- What the environment says. A width that is no number is as good as none. The root of the source
files is expanded with that of the files, at the end. -/
def ofEnvironment (e : Environment) : Except SettingsError Layer := do
  let width ← match (inEnvironment? e "excerpt_width").bind integerText? with
    | some n => if 0 ≤ n then pure (some n.toNat) else throw (.negativeWidth n)
    | none => pure none
  return {
    ruleFormat := inEnvironment? e "rule_format"
    schemaDirectory := (inEnvironment? e "schema_dir").map fun s => Path.expanded e ⟨s⟩
    catalog := (inEnvironment? e "catalog").map fun s => Path.expanded e ⟨s⟩
    sourceRoot := (inEnvironment? e "source_root").map fun s => ⟨s⟩
    excerptWidth := width }

end Layer

namespace Settings

/-- The name of a file with settings. -/
def fileName : Path := ⟨"rulecraft.toml"⟩

/-- The directory of the settings of the user. -/
def userDirectory? (e : Environment) : Option Path :=
  let base : Option Path := ((e.find? "XDG_CONFIG_HOME").map (⟨·⟩)).filter Path.isAbsolute
  let home : Option Path := e.home?.map fun h => Path.join ⟨h⟩ ⟨".config"⟩
  (base.or home).map fun d => d.join ⟨"rulecraft"⟩

/-- The file with the settings of the user. -/
def userFile? (e : Environment) : Option Path := (userDirectory? e).map (·.join fileName)

/-- The file with the settings of a project. -/
def projectFile (project : Path) : Path := project.join fileName

def load (files : Files) (e : Environment) (project : Path) : Except SettingsError Settings := do
  let user ← match userDirectory? e with
    | some directory => Layer.ofFile files e directory (directory.join fileName)
    | none => pure {}
  let own ← Layer.ofFile files e project (projectFile project)
  let surrounding ← Layer.ofEnvironment e
  let s := ((({} : Settings).under user).under own).under surrounding
  return { s with sourceRoot := s.sourceRoot.expanded e }

private def line (name : String) (value : String) : String := s!"{name} = {value}\n"

private def optionalLine (name : String) (p : Option Path) : String :=
  (p.map fun p => line name (Toml.written p.text)).getD ""

/-- Settings as a file. What is not set is left out. -/
def text (s : Settings) : String :=
  line "rule_format" (Toml.written s.ruleFormat) ++
    optionalLine "schema_dir" s.schemaDirectory ++
    optionalLine "catalog" s.catalog ++
    line "source_root" (Toml.written s.sourceRoot.text) ++
    line "excerpt_width" (toString s.excerptWidth)

/-- A file to start with, in which nothing is set. -/
def template : String :=
  "# rulecraft configuration
#
# Locations (by precedence, lowest to highest):
#   Global:  ~/.config/rulecraft/rulecraft.toml
#   Project: <project_dir>/rulecraft.toml
#   Env:     RULECRAFT_* environment variables
#
# Relative paths are resolved against the directory of the config file.

# Rule format assumed when a fragment has no \"ruleFormat\" field
# rule_format = \"" ++ defaultRuleFormat ++ "\"

# Directory of external rule-format schemas, one <version>.json per version
# schema_dir = \"schemas\"

# Capability catalog generated from the provisioning API
# catalog = \"catalog.json\"

# Directory relative call-site file names are resolved against
# source_root = \".\"

# Width of the source excerpt printed for fragment errors
# excerpt_width = 80
"

end Settings

end DeliveryRules
