import DeliveryRules.Toml.Basic

/-!
# What can be wrong with a TOML text

* `Toml.Fault`: what is invalid, what was expected there, and the cause.
* `Toml.Stop`: a fault and the text from it on. It is final, or leaves room for another reading.
* `TomlError`: a fault with the part of the text that it concerns. `TomlError.message` shows the
  line with marks below this part.
-/

namespace DeliveryRules

namespace Toml

inductive Cause where
  /-- A name that is taken, in the table with the given way if that is known. -/
  | duplicateKey (key : String) (table : Option (List String))
  | extendsValue (key : List String) (actual : String)
  | tooLarge
  | tooSmall
  /-- A part of a date or a time that no date or time has. -/
  | outOfRange
  | mismatch (m : TomlMismatch)

def Cause.message : Cause → String
  | duplicateKey key none => s!"duplicate key \x60{key}\x60"
  | duplicateKey key (some []) => s!"duplicate key \x60{key}\x60 in document root"
  | duplicateKey key (some way) =>
    s!"duplicate key \x60{key}\x60 in table \x60" ++ ".".intercalate way ++ "\x60"
  | extendsValue key actual =>
    "dotted key \x60" ++ ".".intercalate key ++
      s!"\x60 attempted to extend non-table type ({actual})"
  | tooLarge => "number too large to fit in target type"
  | tooSmall => "number too small to fit in target type"
  | outOfRange => "value is out of range"
  | mismatch m => m.message

structure Fault where
  /-- What is invalid. -/
  what : Option String := none
  expected : List String := []
  cause : Option Cause := none

namespace Fault

def message (f : Fault) : String :=
  let what := (f.what.map ("invalid " ++ ·)).toList
  let expected :=
    if f.expected.isEmpty then [] else ["expected " ++ ", ".intercalate f.expected]
  "\n".intercalate (what ++ expected ++ (f.cause.map Cause.message).toList)

/-- A fault inside something else keeps its own name. -/
def inside (what : String) (f : Fault) : Fault := { f with what := f.what.or (some what) }

def orExpected (names : List String) (f : Fault) : Fault :=
  { f with expected := f.expected ++ names }

end Fault

structure Stop where
  fault : Fault
  rest : List Char
  final : Bool

end Toml

structure TomlError where
  text : List Char
  fault : Toml.Fault
  /-- The offsets of the part at fault, in bytes. -/
  first : Nat
  last : Nat

namespace TomlError

/-- Line, from zero, and column of the byte at `offset`, which is in the text. The column counts
characters, or bytes where a character of several starts. -/
def placeOf : Nat → Nat → Nat → Nat → List Char → Nat × Nat
  | line, _, chars, _, [] => (line, chars)
  | line, bytes, chars, offset, c :: cs =>
    if offset < c.utf8Size then
      (line, if offset + 1 = c.utf8Size then chars else bytes + offset)
    else if c = '\n' then placeOf (line + 1) 0 0 (offset - c.utf8Size) cs
    else placeOf line (bytes + c.utf8Size) (chars + 1) (offset - c.utf8Size) cs

/-- Line and column, both from zero, of the byte at `offset`. The end of the text comes after its
last byte. -/
def place (text : List Char) (offset : Nat) : Nat × Nat :=
  let size := Text.byteCount text
  if size = 0 then (0, offset)
  else
    let nearest := min offset (size - 1)
    let (line, column) := placeOf 0 0 0 nearest text
    (line, column + (offset - nearest))

private def blanks (n : Nat) : String := String.ofList (List.replicate n ' ')

def message (e : TomlError) : String :=
  let (line, column) := place e.text e.first
  let content := ((Text.cut '\n' e.text)[line]?).getD []
  let number := toString (line + 1)
  let gutter := blanks (number.length + 1) ++ "|"
  let marks := min e.last (e.first + Text.byteCount content) - (e.first + 1) + 1
  s!"TOML parse error at line {line + 1}, column {column + 1}\n" ++
    gutter ++ "\n" ++
    number ++ " | " ++ String.ofList content ++ "\n" ++
    gutter ++ blanks (column + 1) ++ String.ofList (List.replicate marks '^') ++ "\n" ++
    e.fault.message ++ "\n"

/-- The fault of a single character. -/
def ofStop (text : List Char) (s : Toml.Stop) : TomlError :=
  let first := Text.byteCount text - Text.byteCount s.rest
  let size := (s.rest.head?.map Char.utf8Size).getD 0
  ⟨text, s.fault, first, first + size⟩

/-- The fault of what lies between two rests of the text. -/
def ofSpan (text : List Char) (fault : Toml.Fault) (start stop : List Char) : TomlError :=
  let size := Text.byteCount text
  ⟨text, fault, size - Text.byteCount start, size - Text.byteCount stop⟩

end TomlError

end DeliveryRules
