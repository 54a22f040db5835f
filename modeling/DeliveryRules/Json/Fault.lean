import DeliveryRules.Text.Line

/-!
# What can be wrong with a JSON text

* `Fault`: the causes.
* `Stop`: a cause and the place where reading stopped.
* `ParseError`: a cause with its line and its column. Columns count the bytes since the last line
  feed, the byte at fault included.
-/

namespace DeliveryRules.Json

inductive Fault where
  | endInList
  | endInObject
  | endInString
  | endInValue
  | colonExpected
  | commaOrBracketExpected
  | commaOrBraceExpected
  | literalExpected
  | valueExpected
  | invalidEscape
  | invalidNumber
  | numberOutOfRange
  | controlCharacter
  | nameExpected
  | loneSurrogate
  | trailingComma
  | trailingCharacters
  | endOfEscape
  | nestedTooDeep
deriving DecidableEq, Repr

def Fault.message : Fault → String
  | .endInList => "EOF while parsing a list"
  | .endInObject => "EOF while parsing an object"
  | .endInString => "EOF while parsing a string"
  | .endInValue => "EOF while parsing a value"
  | .colonExpected => "expected \x60:\x60"
  | .commaOrBracketExpected => "expected \x60,\x60 or \x60]\x60"
  | .commaOrBraceExpected => "expected \x60,\x60 or \x60\x7d\x60"
  | .literalExpected => "expected ident"
  | .valueExpected => "expected value"
  | .invalidEscape => "invalid escape"
  | .invalidNumber => "invalid number"
  | .numberOutOfRange => "number out of range"
  | .controlCharacter => "control character (\\u0000-\\u001F) found while parsing a string"
  | .nameExpected => "key must be a string"
  | .loneSurrogate => "lone leading surrogate in hex escape"
  | .trailingComma => "trailing comma"
  | .trailingCharacters => "trailing characters"
  | .endOfEscape => "unexpected end of hex escape"
  | .nestedTooDeep => "recursion limit exceeded"

/-- Reading stopped because of `fault`, `ahead` bytes into `rest` or at its end if that comes
first. -/
structure Stop where
  fault : Fault
  rest : List Char
  ahead : Nat
deriving DecidableEq, Repr

structure ParseError where
  fault : Fault
  line : Nat
  column : Nat
deriving DecidableEq, Repr

def ParseError.message (e : ParseError) : String :=
  s!"{e.fault.message} at line {e.line} column {e.column}"

/-- Line and column after the first bytes of a text, from those of its start. -/
def place (line column : Nat) : List Char → Nat → Nat × Nat
  | _, 0 => (line, column)
  | [], _ + 1 => (line, column)
  | c :: cs, n + 1 =>
    if c = '\n' then place (line + 1) 0 cs n
    else if c.utf8Size ≤ n + 1 then place line (column + c.utf8Size) cs (n + 1 - c.utf8Size)
    else (line, column + (n + 1))

def Stop.locate (text : List Char) (s : Stop) : ParseError :=
  let offset := Text.byteCount text - Text.byteCount s.rest + s.ahead
  let (line, column) := place 1 0 text offset
  ⟨s.fault, line, column⟩

end DeliveryRules.Json
