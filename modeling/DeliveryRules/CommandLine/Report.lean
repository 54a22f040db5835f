import DeliveryRules.Capability.Written
import DeliveryRules.CommandLine.Invocation
import DeliveryRules.Compiler.Script
import DeliveryRules.Settings.Layers

/-!
# Carrying out a command

A command reads files and comes to a deed: texts to print, or a file to write. Why it fails is a
`CommandError`, which has a message and an exit code.

* `Invocation.carryOut`: what a command comes to.
* `Report`: what is printed, and the exit code.
-/

namespace DeliveryRules.CommandLine

inductive CommandError where
  | settings (error : SettingsError)
  | noCommand
  | noCatalog
  | setup (error : SetupError)
  | compile (error : CompileError)
  | noProvenance (pointer : String)
  | unwritten (path : Path)

namespace CommandError

def message : CommandError → String
  | settings e => s!"config error: {e.message}"
  | noCommand => s!"no command given, see \x60{programName} --help\x60"
  | noCatalog => "no capability catalog configured: pass --catalog or set \x60catalog\x60 in " ++
      Settings.fileName.text
  | setup e => e.message
  | compile e => e.message
  | noProvenance pointer => s!"no provenance recorded on the path of {pointer}"
  | unwritten path => s!"I/O error: write {path.text}"

/-- The exit code tells what is at fault: the pointer (1), the line (64), the data (65), the file of
a fragment (66), another file (70), the file to write (74) or the settings (78). -/
def exitCode : CommandError → Nat
  | noProvenance _ => 1
  | noCommand => 64
  | noCatalog => 64
  | compile (.unreadable ..) => 66
  | compile _ => 65
  | setup (.schema ..) => 78
  | setup _ => 70
  | unwritten _ => 74
  | settings _ => 78

end CommandError

/-- What a command comes to. Notes are no part of its result. -/
inductive Deed where
  | print (text : String) (notes : String)
  | write (path : Path) (text : String) (notes : String)

namespace Deed

/-- Prints a text as a line. -/
def say (text : String) : Deed := .print (text ++ "\n") ""

end Deed

/-- What a command works with. -/
structure Surroundings where
  files : Files
  environment : Environment
  /-- The working directory. -/
  directory : Path

/-- The catalog that the settings name. -/
def loadCatalog (files : Files) (s : Settings) : Except CommandError Catalog :=
  match s.catalog with
  | none => .error .noCatalog
  | some path => do
    let text ← (files.read path).mapError (.setup <| .unreadable .catalog path ·)
    match CatalogFile.ofText? text with
    | none => throw (.setup (.malformed .catalog path))
    | some file => (Catalog.ofFile file).mapError .compile

/-- The tree that has nothing but what a fragment says. -/
def treeOf (c : Compiler) (fragment : Path) : Except CompileError RuleTree :=
  match (c.toWorkshop.importFile ⟨"/"⟩ RuleTree.rootId fragment.text).run Compiler.freshTree with
  | (.ok (), t) => .ok t
  | (.error e, _) => .error e

def compile (w : Surroundings) (s : Settings) (fragment : Path) (output : Option Path)
    (drawn : Bool) : Except CommandError Deed := do
  let catalog ← loadCatalog w.files s
  let c ← (Compiler.ofSettings s catalog w.files).mapError .setup
  let t ← (treeOf c (w.directory.join fragment)).mapError .compile
  if drawn then return .say t.drawing
  let text := (t.document c.ruleFormat).text
  match output with
  | none => return .say text
  | some path => return .write path (text ++ "\n") s!"✓ {t.size} rules written to {path.text}\n"

def locate (w : Surroundings) (document : Path) (pointer : String) : Except CommandError Deed := do
  let text ← (w.files.read document).mapError (.setup <| .unreadable .document document ·)
  let value ← (Json.read text).mapError fun _ => .setup (.malformed .document document)
  match Pointer.nearestProvenance value (Pointer.tokens pointer) with
  | none => throw (.noProvenance pointer)
  | some provenance => return .say provenance

/-- A capability with the names of the options that have defaults. -/
def Descriptor.listing (d : Descriptor) : String :=
  let defaults := ", ".intercalate (Members.names d.defaults)
  if d.defaults.isEmpty then s!"  {d.name}\n" else s!"  {d.name}: defaults {defaults}\n"

/-- The capabilities of a catalog, kind by kind. -/
def Catalog.listing (c : Catalog) : String :=
  String.join ([Capability.Kind.criteria, .behavior].map fun kind =>
    kind.name ++ "\n" ++ String.join ((c.descriptors kind).map Descriptor.listing))

/-- The files that settings are read from. -/
def settingsFiles (e : Environment) (project : Path) : Deed :=
  let own := s!"  project: {(Settings.projectFile project).text}\n"
  match Settings.userFile? e with
  | some file => .print s!"Config paths\n  global: {file.text}\n{own}" ""
  | none =>
    .print s!"Config paths\n{own}" "Warning: no home directory, global config disabled\n"

/-- What makes a shell complete the names of the commands. -/
def Shell.script (shell : Shell) : String :=
  let words := " ".intercalate (grammar.commands.map (·.name))
  match shell with
  | .bash => s!"complete -W '{words}' {programName}"
  | .elvish => s!"set edit:completion:arg-completer[{programName}] = \x7b|@_| put {words} \x7d"
  | .fish => s!"complete -c {programName} -f -a '{words}'"
  | .powershell =>
    s!"Register-ArgumentCompleter -Native -CommandName {programName} -ScriptBlock " ++
      s!"\x7b '{words}'.Split(' ') \x7d"
  | .zsh => s!"compctl -k '({words})' {programName}"

namespace Invocation

def projectIn (i : Invocation) (directory : Path) : Path := i.projectDirectory.getD directory

/-- The settings, with the catalog of the command line if it has one. -/
def settings (i : Invocation) (w : Surroundings) : Except CommandError Settings := do
  let s ← (Settings.load w.files w.environment (i.projectIn w.directory)).mapError .settings
  return { s with catalog := i.catalog.or s.catalog }

/-- What the command comes to. Settings that cannot be read fail any command. -/
def carryOut (i : Invocation) (w : Surroundings) : Except CommandError Deed := do
  let s ← i.settings w
  match i.command with
  | none => throw .noCommand
  | some (.compile fragment output drawn) => compile w s fragment output drawn
  | some (.locate document pointer) => locate w document pointer
  | some .schema => return .say (← loadCatalog w.files s).ruleSchema.pretty
  | some .capabilities => return .print (Catalog.listing (← loadCatalog w.files s)) ""
  | some (.settings .effective) => return .say s.text
  | some (.settings .template) => return .say Settings.template
  | some (.settings .files) => return settingsFiles w.environment (i.projectIn w.directory)
  | some (.completion shell) => return .say shell.script

end Invocation

/-- How a command ends. -/
structure Report where
  exitCode : Nat
  output : String
  notes : String
deriving DecidableEq, Repr

def CommandError.report (e : CommandError) : Report := ⟨e.exitCode, "", s!"error: {e.message}\n"⟩

/-- How commands are called. -/
def usage : String :=
  String.join (grammar.commands.map line)
where
  line (c : Grammar) : String :=
    let operands := String.join (c.operands.map fun o => s!" <{o.name}>")
    let names := "|".intercalate (c.commands.map (·.name))
    let commands := if names.isEmpty then "" else s!" {names}"
    s!"{programName} [options] {c.name}{operands}{commands}\n"

/-- What a line comes to that says nothing to be carried out. -/
def UsageFault.report (f : UsageFault) : Report :=
  match f with
  | help => ⟨f.exitCode, usage, ""⟩
  | version => ⟨f.exitCode, s!"{programName} 0.3.0\n", ""⟩
  | _ => ⟨f.exitCode, "", s!"error: {cause f}\n\n{usage}"⟩
where
  cause : UsageFault → String
    | unknownArgument => "unknown argument"
    | unknownCommand => "unknown command"
    | badValue => "bad value"
    | unwantedValue => "a value where none belongs"
    | repeated => "an option given twice"
    | missingOperand => "missing argument"
    | _ => "missing command"

end DeliveryRules.CommandLine
