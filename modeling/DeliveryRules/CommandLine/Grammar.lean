import DeliveryRules.Settings.Expansion

/-!
# Grammars of command lines

A command takes values: operands by their place, and others behind switches. It may have commands of
its own, which take the rest of the line.

* `Grammar`: a command with its operands, switches and commands.
* `Grammar.read`: what a line says, as a clause for each command that is named in it. A command
  takes over where its name stands, unless a switch waits for its value there.
* `UsageFault`: why a line says nothing.

A value is checked when it is clear that nothing else belongs to it: at the next switch or operand,
or at the end. The clause of an inner command is complete before that of the outer one.
-/

namespace DeliveryRules.CommandLine

/-- Why a line says nothing that can be carried out. The first two are no mistakes. -/
inductive UsageFault where
  | help
  | version
  | unknownArgument
  | unknownCommand
  | missingOperand
  | missingCommand
  /-- A command is missing, and nothing else is there either. -/
  | nothingGiven
  | badValue
  | unwantedValue
  | repeated
deriving DecidableEq, Repr

def UsageFault.exitCode : UsageFault → Nat
  | help => 0
  | version => 0
  | _ => 2

inductive ValueKind where
  | text
  /-- A text that is not empty. -/
  | path
  | word (words : List String)
deriving Repr

def ValueKind.admits : ValueKind → String → Bool
  | text, _ => true
  | path, v => !v.isEmpty
  | word ws, v => ws.contains v

/-- Where a value goes. -/
structure Slot where
  name : String
  kind : ValueKind
deriving Repr

inductive Effect where
  | help
  | version
  /-- May be given any number of times. -/
  | count
  | once
  /-- Takes a value, or has that of a variable of the environment. -/
  | value (kind : ValueKind) (variableName : Option String)
deriving Repr

structure Switch where
  name : String
  letter : Option Char
  effect : Effect
deriving Repr

structure Grammar where
  name : String
  operands : List Slot
  switches : List Switch
  commands : List Grammar
  /-- One of the commands has to be given. -/
  needsCommand : Bool

/-- What a line says of one command. -/
structure Clause where
  command : String
  given : List (String × String)
  /-- What the environment says in the place of switches that are not given. -/
  ambient : List (String × String)
deriving Repr

/-- A value that is not checked yet, or is still to come. -/
structure Pending where
  slot : Slot
  value : Option String

/-- What was read of the clause of one command. -/
structure Reading where
  given : List (String × String)
  pending : Option Pending
  operands : List Slot
  /-- All that follows are operands. -/
  literal : Bool

namespace Reading

def has (r : Reading) (name : String) : Bool := r.given.any (·.1 = name)

def put (r : Reading) (name value : String) : Reading :=
  { r with given := r.given ++ [(name, value)] }

/-- A switch waits for its value. -/
def awaits (r : Reading) : Bool :=
  match r.pending with
  | some ⟨_, none⟩ => true
  | _ => false

/-- Checks the value that is pending. -/
def settle (r : Reading) : Except UsageFault Reading :=
  match r.pending with
  | none => .ok r
  | some ⟨_, none⟩ => .error .badValue
  | some ⟨slot, some v⟩ =>
    if r.has slot.name then .error .repeated
    else if slot.kind.admits v then .ok ({ r with pending := none }.put slot.name v)
    else .error .badValue

/-- Checks the value that is pending and takes another, which may be still to come. -/
def hold (r : Reading) (slot : Slot) (value : Option String) : Except UsageFault Reading := do
  return { ← r.settle with pending := some ⟨slot, value⟩ }

/-- Takes the value that a switch waits for. -/
def fill (r : Reading) (value : String) : Reading :=
  { r with pending := r.pending.map fun p => { p with value := some value } }

/-- A switch, perhaps with a value attached to it. -/
def switch (r : Reading) (s : Switch) (attached : Option String) : Except UsageFault Reading :=
  match s.effect, attached with
  | .value kind _, none => r.hold ⟨s.name, kind⟩ none
  | .value kind _, some v => do (← r.hold ⟨s.name, kind⟩ (some v)).settle
  | _, some _ => .error .unwantedValue
  | .help, none => do let _ ← r.settle; throw .help
  | .version, none => do let _ ← r.settle; throw .version
  | .count, none => do return (← r.settle).put s.name ""
  | .once, none => do
    let r ← r.settle
    if r.has s.name then throw .repeated
    return r.put s.name ""

end Reading

/-- The form of an argument. -/
inductive Form where
  | plain
  /-- All that follows are operands. -/
  | divider
  | long (name : String) (value : Option String)
  | short (letters : List Char)
deriving DecidableEq, Repr

/-- A dash alone is plain. -/
def Form.of (argument : String) : Form :=
  match argument.toList with
  | ['-', '-'] => divider
  | '-' :: '-' :: rest =>
    match rest.span (· ≠ '=') with
    | (name, []) => long (String.ofList name) none
    | (name, _ :: value) => long (String.ofList name) (some (String.ofList value))
  | ['-'] => plain
  | '-' :: letters => short letters
  | _ => plain

namespace Grammar

def helpName : String := "help"

def command? (g : Grammar) (name : String) : Option Grammar :=
  g.commands.find? (·.name = name)

/-- A command that has commands can also be asked for help with them. -/
def hasHelp (g : Grammar) : Bool := !g.commands.isEmpty

def isCommand (g : Grammar) (name : String) : Bool :=
  (g.command? name).isSome || (g.hasHelp && name = helpName)

/-- What asking for help comes to with the names of the commands to help with. -/
def helpWith : List String → Grammar → UsageFault
  | [], _ => .help
  | name :: names, g =>
    match g.command? name with
    | some c => helpWith names c
    | none => if g.isCommand name && names.isEmpty then .help else .unknownCommand

def start (g : Grammar) : Reading := ⟨[], none, g.operands, false⟩

/-- Switches given by their letters. What follows the letter of one with a value is its value, with
or without a sign in between. -/
def cluster (g : Grammar) : List Char → Reading → Except UsageFault Reading
  | [], r => .ok r
  | letter :: letters, r =>
    match g.switches.find? (·.letter = some letter) with
    | none => .error .unknownArgument
    | some s =>
      match s.effect, letters with
      | .value .., [] => r.switch s none
      | .value .., '=' :: value => r.switch s (some (String.ofList value))
      | .value .., value => r.switch s (some (String.ofList value))
      | _, _ => do g.cluster letters (← r.switch s none)

def operand (g : Grammar) (argument : String) (r : Reading) : Except UsageFault Reading :=
  match r.operands with
  | slot :: slots => do return { ← r.hold slot (some argument) with operands := slots }
  | [] =>
    if g.commands.isEmpty || (r.literal && g.isCommand argument) then .error .unknownArgument
    else .error .unknownCommand

/-- One more argument that names no command. -/
def argument (g : Grammar) (arg : String) (r : Reading) : Except UsageFault Reading :=
  if r.literal then g.operand arg r
  else
    match Form.of arg with
    | .divider => .ok { r with literal := true }
    | .long name value =>
      match g.switches.find? (·.name = name) with
      | none => .error .unknownArgument
      | some s => r.switch s value
    | .short letters => g.cluster letters r
    | .plain => if r.awaits then .ok (r.fill arg) else g.operand arg r

/-- What the environment says in the place of a switch that is not given. -/
def ambient (e : Environment) (r : Reading) (s : Switch) :
    Except UsageFault (Option (String × String)) :=
  match s.effect with
  | .value kind (some variableName) =>
    if r.has s.name then .ok none
    else
      match e.find? variableName with
      | none => .ok none
      | some v => if kind.admits v then .ok (some (s.name, v)) else .error .badValue
  | _ => .ok none

/-- The clause of a command, all of it read. -/
def close (g : Grammar) (e : Environment) (hasCommand : Bool) (r : Reading) :
    Except UsageFault Clause := do
  let r ← r.settle
  let values := (← g.switches.mapM (ambient e r)).filterMap id
  if g.needsCommand && !hasCommand then
    throw (if r.given.isEmpty && values.isEmpty then .nothingGiven else .missingCommand)
  if !r.operands.isEmpty then throw .missingOperand
  return ⟨g.name, r.given, values⟩

/-- The clauses of a line, from where the reading of the outermost one has come to. -/
def readFrom (e : Environment) : List String → Grammar → Reading → Except UsageFault (List Clause)
  | [], g, r => do return [← g.close e false r]
  | arg :: args, g, r => do
    if !r.literal && !r.awaits && g.isCommand arg then
      match g.command? arg with
      | none => throw (helpWith args g)
      | some c =>
        let inner ← readFrom e args c c.start
        return (← g.close e true r) :: inner
    else
      readFrom e args g (← g.argument arg r)

/-- What a line says, from the outermost command to the innermost. -/
def read (g : Grammar) (e : Environment) (args : List String) : Except UsageFault (List Clause) :=
  readFrom e args g g.start

end Grammar

/-- The value of a switch that may stand anywhere in a line: the innermost that is given, or that of
the environment. -/
def Clause.value? (clauses : List Clause) (name : String) : Option String :=
  (clauses.reverse.findSome? (·.given.lookup name)).or
    (clauses.findSome? (·.ambient.lookup name))

end DeliveryRules.CommandLine
