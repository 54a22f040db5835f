import DeliveryRules.CommandLine.Grammar
import DeliveryRules.Path

/-!
# Invocations

What the program can be asked for on its command line.

* `Command`: the commands with their values.
* `grammar`: how a line has to be written.
* `Invocation.read`: the command of a line, with what may be said in front of any command.
-/

namespace DeliveryRules.CommandLine

/-- What to show of the settings. -/
inductive SettingsView where
  | effective
  | template
  | files
deriving DecidableEq, Repr

inductive Shell where
  | bash
  | elvish
  | fish
  | powershell
  | zsh
deriving DecidableEq, Repr

namespace Shell

def name : Shell → String
  | bash => "bash"
  | elvish => "elvish"
  | fish => "fish"
  | powershell => "powershell"
  | zsh => "zsh"

def all : List Shell := [bash, elvish, fish, powershell, zsh]

def find? (s : String) : Option Shell := all.find? (·.name = s)

end Shell

inductive Command where
  /-- The document of a fragment, or a drawing of its rules. -/
  | compile (fragment : Path) (output : Option Path) (drawn : Bool)
  | locate (document : Path) (pointer : String)
  | schema
  | capabilities
  | settings (view : SettingsView)
  | completion (shell : Shell)
deriving DecidableEq, Repr

structure Invocation where
  projectDirectory : Option Path
  catalog : Option Path
  command : Option Command
deriving DecidableEq, Repr

def programName : String := "rulecraft"

/-- Switches that every command has. -/
def sharedSwitches : List Switch :=
  [⟨"debug", some 'd', .count⟩,
    ⟨"project-dir", some 'C', .value .path none⟩,
    ⟨"catalog", none, .value .path (some "RULECRAFT_CATALOG")⟩,
    ⟨"help", some 'h', .help⟩,
    ⟨"version", some 'V', .version⟩]

/-- A command without commands of its own. -/
private def plainCommand (name : String) (operands : List Slot) (switches : List Switch) :
    Grammar where
  name := name
  operands := operands
  switches := switches ++ sharedSwitches
  commands := []
  needsCommand := false

def compileGrammar : Grammar :=
  plainCommand "compile" [⟨"fragment", .path⟩]
    [⟨"output", some 'o', .value .path none⟩, ⟨"tree", none, .once⟩]

def locateGrammar : Grammar :=
  plainCommand "locate" [⟨"document", .path⟩, ⟨"pointer", .text⟩] []

def settingsGrammar : Grammar where
  name := "config"
  operands := []
  switches := sharedSwitches
  commands := [plainCommand "show" [] [], plainCommand "template" [] [], plainCommand "path" [] []]
  needsCommand := true

def completionGrammar : Grammar :=
  plainCommand "completion" [⟨"shell", .word (Shell.all.map Shell.name)⟩] []

def grammar : Grammar where
  name := programName
  operands := []
  switches := sharedSwitches
  commands :=
    [compileGrammar, locateGrammar, plainCommand "schema" [] [], plainCommand "capabilities" [] [],
      settingsGrammar, completionGrammar]
  needsCommand := false

namespace Clause

/-- The value of an operand. Those of a clause are all given. -/
def operand (c : Clause) (name : String) : String := (c.given.lookup name).getD ""

/-- What the settings are shown as. -/
def settingsView (c : Clause) : SettingsView :=
  match c.command with
  | "template" => .template
  | "path" => .files
  | _ => .effective

end Clause

/-- The command of the clauses behind the outermost one. -/
def Command.ofClauses? : List Clause → Option Command
  | [] => none
  | c :: inner =>
    match c.command with
    | "compile" =>
      let output := (c.given.lookup "output").map Path.mk
      some (.compile ⟨c.operand "fragment"⟩ output (c.given.lookup "tree").isSome)
    | "locate" => some (.locate ⟨c.operand "document"⟩ (c.operand "pointer"))
    | "schema" => some .schema
    | "capabilities" => some .capabilities
    | "config" => inner.head?.map fun view => .settings view.settingsView
    | _ => (Shell.find? (c.operand "shell")).map .completion

/-- The invocation that a line stands for. -/
def Invocation.read (e : Environment) (args : List String) : Except UsageFault Invocation := do
  let clauses ← grammar.read e args
  let path (name : String) : Option Path := (Clause.value? clauses name).map Path.mk
  return ⟨path "project-dir", path "catalog", Command.ofClauses? clauses.tail⟩

end DeliveryRules.CommandLine
