import DeliveryRules.Toml.Reader

/-!
# Reading TOML documents

A document is a table of members, each with the part of the text it comes from. Members are given
one by one, or for tables below the root after a header. No name is given twice, and no table is
opened twice by headers.

* `Draft`: what was read so far.
* `TomlDocument.read`: a whole text.
-/

namespace DeliveryRules

namespace Toml

/-- The part of the text that a member of the root comes from, as the texts from its start and from
its end on. -/
structure Place where
  name : String
  start : List Char
  stop : List Char

/-- What was read so far. -/
structure Draft where
  entries : Entries := []
  /-- The way to the table that the last header opened. -/
  table : List String := []
  places : List Place := []

namespace Draft

/-- Notes where a member of the root comes from, unless that is known. -/
def note (d : Draft) (p : Place) : Draft :=
  if d.places.any (·.name = p.name) then d else { d with places := d.places ++ [p] }

/-- A table that a header opened reaches as far as its last member. -/
def extend (d : Draft) (stop : List Char) : Draft :=
  match d.table with
  | [name] =>
    { d with places := d.places.map fun p => if p.name = name then { p with stop := stop } else p }
  | _ => d

private def refuse {α : Type} (rest : List Char) (x : Except Cause α) : Except Stop α :=
  x.mapError fun cause => ⟨{ cause := some cause }, rest, true⟩

/-- A line with a member. -/
def readMember (d : Draft) (cs : List Char) : Except Stop (Draft × List Char) := do
  let (key, afterKey) ← readKey cs
  let rest ← readEquals afterKey
  let start := skipSpace rest
  let (v, stop) ← readValue (start.length + 1) start
  let rest ← endLine stop
  let names := key.dropLast
  let name := key.getLastD ""
  let entries ← refuse cs
    (Entries.changeAt false (fun _ => Entries.put (some d.table) names name (.value v)) d.table []
      false d.entries)
  let d := { d with entries := entries }
  let d := match d.table, key with
    | [], [single] => d.note ⟨single, start, stop⟩
    | [], first :: _ => d.note ⟨first, cs, cs.drop first.length⟩
    | _, _ => d.extend stop
  return (d, rest)

/-- A line with a header, whose first bracket is here. -/
def readHeader (d : Draft) (cs : List Char) : Except Stop (Draft × List Char) :=
  within "table header" <|
    match cs with
    | '[' :: '[' :: inner => header inner [']', ']'] "\x60]]\x60" Entries.openItem
    | '[' :: c :: rest => header (c :: rest) [']'] "\x60]\x60" Entries.openTable
    | _ => stop {} cs
where
  header (inner closing : List Char) (expected : String)
      (create : List String → String → Entries → Except Cause Entries) :
      Except Stop (Draft × List Char) := do
    let (key, rest) ← readKey inner
    match Text.afterPrefix? closing rest with
    | none => stop { expected := ["\x60.\x60", expected] } rest
    | some afterHeader =>
      let rest ← endLine afterHeader
      let way := key.dropLast
      let name := key.getLastD ""
      let entries ← refuse cs
        (Entries.changeAt false (fun _ => create way name) way [] false d.entries)
      let d := { d with entries := entries, table := key }
      let place : Place := match key with
        | [single] => ⟨single, cs, afterHeader⟩
        | first :: _ => ⟨first, inner, inner.drop first.length⟩
        | [] => ⟨"", cs, cs⟩
      return (d.note place, rest)

/-- All lines. `fuel` bounds their number. -/
def readLines : Nat → Draft → List Char → Except Stop Draft
  | 0, d, _ => .ok d
  | fuel + 1, d, cs =>
    let cs := skipSpace cs
    match cs, lineBreak? cs with
    | [], _ => .ok d
    | _, some rest => readLines fuel d rest
    | '#' :: _, _ =>
      let rest := skipComment cs
      match lineBreak? rest with
      | some rest => readLines fuel d rest
      | none => if rest.isEmpty then .ok d else stop {} rest
    | '\r' :: _, none => stop {} cs
    | '[' :: _, _ => do
      let (d, rest) ← readHeader d cs
      readLines fuel d rest
    | _, _ => do
      let (d, rest) ← readMember d cs
      readLines fuel d rest

end Draft

end Toml

/-- A document: its members, and where each comes from. -/
structure TomlDocument where
  text : List Char
  members : List (String × Toml)
  places : List Toml.Place

namespace TomlDocument

/-- The text without the mark of the order of bytes. -/
def skipMark (cs : List Char) : List Char :=
  match cs with
  | '\ufeff' :: rest => rest
  | _ => cs

def read (text : String) : Except TomlError TomlDocument :=
  let cs := text.toList
  match Toml.Draft.readLines (cs.length + 1) {} (skipMark cs) with
  | .ok d => .ok ⟨cs, Toml.Item.ofEntries d.entries, d.places⟩
  | .error s => .error (.ofStop cs s)

/-- The error of a member that is not what it should be. -/
def mismatch (d : TomlDocument) (name : String) (m : TomlMismatch) : TomlError :=
  match d.places.find? (·.name = name) with
  | some p => .ofSpan d.text { cause := some (.mismatch m) } p.start p.stop
  | none => .ofSpan d.text { cause := some (.mismatch m) } [] []

end TomlDocument

end DeliveryRules
