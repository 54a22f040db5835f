import DeliveryRules.Capability.Basic
import DeliveryRules.Json.Fault
import DeliveryRules.Schema.Basic

/-!
# Why rules cannot be put together

* `CompileError`: the causes, with what each concerns.
* `FragmentFault`: what can be wrong with a file of rules.
* `DescriptorFault`: what can be wrong with a descriptor.
* `ReadFailure`: why there is nothing to read.
-/

namespace DeliveryRules

inductive ReadFailure where
  /-- A store of texts has none under this name. -/
  | noEntry
  | noSuchFile
  | notDirectory
  | isDirectory
  | notText
  | refused
  | nameTooLong
  /-- No file system knows a path with this character. -/
  | nulInPath
  /-- Nobody has looked yet. -/
  | unseen
deriving DecidableEq, Repr

namespace ReadFailure

def message : ReadFailure → String
  | noEntry => "entity not found"
  | noSuchFile => "No such file or directory (os error 2)"
  | notDirectory => "Not a directory (os error 20)"
  | isDirectory => "Is a directory (os error 21)"
  | notText => "stream did not contain valid UTF-8"
  | refused => "Permission denied (os error 13)"
  | nameTooLong => "File name too long (os error 36)"
  | nulInPath => "file name contained an unexpected NUL byte"
  | unseen => "not looked at"

end ReadFailure

inductive DescriptorFault where
  | emptyName
  | schemaNotObject
  | badSchema (fault : SchemaFault)
  | undeclared (option : String)
  | declaredAs (option actual expected : String)

namespace DescriptorFault

def message : DescriptorFault → String
  | emptyName => "empty name"
  | schemaNotObject => "option schema is not an object"
  | badSchema fault => s!"option schema does not compile: {fault.message}"
  | undeclared option =>
    s!"variable option '{option}' is not declared in the option schema"
  | declaredAs option actual expected =>
    s!"variable option '{option}' is declared as {actual}, expected {expected}"

end DescriptorFault

inductive FragmentFault where
  | notJson (error : Json.ParseError)
  | invalid (message pointer : String) (line : Nat) (excerpt : String)
  | includesItself

namespace FragmentFault

/-- The line at fault, if there is one. -/
def line? : FragmentFault → Option Nat
  | notJson e => some e.line
  | invalid _ _ line _ => some line
  | includesItself => none

def message : FragmentFault → String
  | notJson e => s!"invalid JSON at line {e.line}, column {e.column}: {e.message}"
  | invalid message pointer line excerpt =>
    s!"line {line}: {message} (at {pointer})\n  {line} | {excerpt}"
  | includesItself => "fragment includes itself"

end FragmentFault

/-- What an option has to be. -/
inductive OptionShape where
  | object
  | string
  | array
  | strings
deriving DecidableEq, Repr

def OptionShape.text : OptionShape → String
  | object => "object"
  | string => "string"
  | array => "array"
  | strings => "array of strings"

inductive CompileError where
  | typeMismatch (capability option : String) (expected : OptionShape)
  | unknownCapability (kind : Capability.Kind) (name : String)
  | invalidDescriptor (kind : Capability.Kind) (name : String) (fault : DescriptorFault)
  | unknownRuleFormat (version : String)
  | unreadable (path : Path) (failure : ReadFailure)
  | badFragment (path : Path) (fault : FragmentFault)

namespace CompileError

def message : CompileError → String
  | typeMismatch capability option expected =>
    s!"type mismatch in {capability} option '{option}': expected {expected.text}"
  | unknownCapability kind name => s!"unknown {kind.name} '{name}'"
  | invalidDescriptor kind name fault =>
    s!"invalid descriptor for {kind.name} '{name}': {fault.message}"
  | unknownRuleFormat version => s!"unknown rule format '{version}'"
  | unreadable path failure => s!"cannot read fragment {path.text}: {failure.message}"
  | badFragment path fault => s!"bad fragment {path.text}: {fault.message}"

end CompileError

end DeliveryRules
