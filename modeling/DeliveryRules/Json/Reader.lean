import DeliveryRules.Json.Located
import DeliveryRules.Json.Number

/-!
# Reading a JSON text

`Json.read` takes a whole text, `Json.readLocated` keeps the places of the parts. Arrays and objects
may enclose one another `maxDepth` deep. Reading stops at the first fault.

Each reader takes the characters to come and gives back those after what it read.
-/

namespace DeliveryRules.Json

/-- The characters that may stand between the parts of a JSON text. -/
def isGap (c : Char) : Bool :=
  c = ' ' || c = '\t' || c = '\n' || c = '\r'

def skipGaps (cs : List Char) : List Char := cs.dropWhile isGap

def hexValue? (c : Char) : Option Nat :=
  if c.isDigit then some (digitValue c)
  else if 'a' ≤ c && c ≤ 'f' then some (c.toNat - 'a'.toNat + 10)
  else if 'A' ≤ c && c ≤ 'F' then some (c.toNat - 'A'.toNat + 10)
  else none

/-- The value of four hexadecimal digits. -/
def hexUnit? (a b c d : Char) : Option Nat := do
  let a ← hexValue? a
  let b ← hexValue? b
  let c ← hexValue? c
  let d ← hexValue? d
  return ((a * 16 + b) * 16 + c) * 16 + d

def isHighSurrogate (n : Nat) : Bool := 0xD800 ≤ n && n < 0xDC00

def isLowSurrogate (n : Nat) : Bool := 0xDC00 ≤ n && n < 0xE000

/-- The character that a high and a low surrogate stand for. -/
def pairedChar (high low : Nat) : Char :=
  Char.ofNat (0x10000 + (high - 0xD800) * 0x400 + (low - 0xDC00))

/-- The rest of `cs` after something that was read from it. -/
abbrev Shorter (cs : List Char) := { rest : List Char // rest.length < cs.length }

/-- The four digits of an escape. Four bytes have to be there, whatever they are. -/
def readUnit (cs : List Char) : Except Stop (Nat × Shorter cs) :=
  match cs with
  | a :: b :: c :: d :: rest =>
    match hexUnit? a b c d with
    | some n => .ok (n, ⟨rest, by simp only [List.length_cons]; omega⟩)
    | none => .error ⟨.invalidEscape, a :: b :: c :: d :: rest, 4⟩
  | short =>
    if Text.byteCount short < 4 then stopAtEnd .endInString
    else .error ⟨.invalidEscape, short, 4⟩

/-- The second half of a pair, after the digits of the first. -/
def readLowHalf (high : Nat) (cs : List Char) : Except Stop (Char × Shorter cs) :=
  match cs with
  | [] => stopAtEnd .endInString
  | '\\' :: [] => stopAtEnd .endInString
  | '\\' :: 'u' :: rest => do
    let (low, ⟨rest', h⟩) ← readUnit rest
    if isLowSurrogate low then
      return (pairedChar high low, ⟨rest', by simp only [List.length_cons]; omega⟩)
    else .error ⟨.loneSurrogate, rest', 0⟩
  | '\\' :: rest => stopAt .endOfEscape rest
  | rest => stopAt .endOfEscape rest

/-- What follows a backslash. -/
def readEscape (cs : List Char) : Except Stop (Char × Shorter cs) :=
  match cs with
  | [] => stopAtEnd .endInString
  | c :: rest =>
    let as (d : Char) : Except Stop (Char × Shorter (c :: rest)) := .ok (d, ⟨rest, by simp⟩)
    match c with
    | '"' => as '"'
    | '\\' => as '\\'
    | '/' => as '/'
    | 'b' => as '\x08'
    | 'f' => as '\x0c'
    | 'n' => as '\n'
    | 'r' => as '\r'
    | 't' => as '\t'
    | 'u' => do
      let (n, ⟨rest', h⟩) ← readUnit rest
      if isLowSurrogate n then .error ⟨.loneSurrogate, rest', 0⟩
      else if isHighSurrogate n then
        let (d, ⟨rest'', h'⟩) ← readLowHalf n rest'
        return (d, ⟨rest'', by simp only [List.length_cons]; omega⟩)
      else return (Char.ofNat n, ⟨rest', by simp only [List.length_cons]; omega⟩)
    | _ => stopAt .invalidEscape (c :: rest)

/-- The characters of a string, after its opening quote. -/
def readChars (cs : List Char) : Except Stop (Followed (List Char)) :=
  match cs with
  | [] => stopAtEnd .endInString
  | c :: rest =>
    if c = '"' then .ok ([], rest)
    else if c = '\\' then
      match readEscape rest with
      | .error e => .error e
      | .ok (d, ⟨rest', _⟩) =>
        match readChars rest' with
        | .error e => .error e
        | .ok (ds, after) => .ok (d :: ds, after)
    else if c.toNat < 0x20 then stopAt .controlCharacter (c :: rest)
    else
      match readChars rest with
      | .error e => .error e
      | .ok (ds, after) => .ok (c :: ds, after)
termination_by cs.length
decreasing_by all_goals simp only [List.length_cons]; omega

def readString (cs : List Char) : Except Stop (Followed String) := do
  let (chars, rest) ← readChars cs
  return (String.ofList chars, rest)

/-- The letters that are left of a literal. -/
def readLiteral : List Char → List Char → Except Stop (List Char)
  | [], cs => .ok cs
  | _ :: _, [] => stopAtEnd .endInValue
  | l :: ls, c :: cs => if l = c then readLiteral ls cs else stopAt .literalExpected (c :: cs)

section Sequences

variable {α : Type} (item : List Char → Except Stop (Followed α))

/-- The items after one that was read. `fuel` bounds their number. -/
def moreItems : Nat → List Char → Except Stop (Followed (List α))
  | 0, cs => stopAt .endInList cs
  | fuel + 1, cs =>
    match skipGaps cs with
    | [] => stopAtEnd .endInList
    | ']' :: rest => .ok ([], rest)
    | ',' :: rest =>
      match skipGaps rest with
      | [] => stopAtEnd .endInValue
      | ']' :: r => stopAt .trailingComma (']' :: r)
      | next => do
        let (x, r) ← item next
        let (xs, r) ← moreItems fuel r
        return (x :: xs, r)
    | other => stopAt .commaOrBracketExpected other

/-- The items of an array, after its bracket. -/
def readItems (cs : List Char) : Except Stop (Followed (List α)) :=
  match skipGaps cs with
  | [] => stopAtEnd .endInList
  | ']' :: rest => .ok ([], rest)
  | next => do
    let (x, rest) ← item next
    let (xs, rest) ← moreItems item (rest.length + 1) rest
    return (x :: xs, rest)

/-- A member whose name starts after the quote. -/
def readMember (cs : List Char) : Except Stop (Followed (String × α)) := do
  let (name, rest) ← readString cs
  match skipGaps rest with
  | [] => stopAtEnd .endInObject
  | ':' :: rest =>
    let (x, rest) ← item rest
    return ((name, x), rest)
  | other => stopAt .colonExpected other

@[inherit_doc moreItems]
def moreMembers : Nat → List Char → Except Stop (Followed (List (String × α)))
  | 0, cs => stopAt .endInObject cs
  | fuel + 1, cs =>
    match skipGaps cs with
    | [] => stopAtEnd .endInObject
    | '\x7d' :: rest => .ok ([], rest)
    | ',' :: rest =>
      match skipGaps rest with
      | [] => stopAtEnd .endInValue
      | '"' :: rest => do
        let (m, r) ← readMember item rest
        let (ms, r) ← moreMembers fuel r
        return (m :: ms, r)
      | '\x7d' :: r => stopAt .trailingComma ('\x7d' :: r)
      | other => stopAt .nameExpected other
    | other => stopAt .commaOrBraceExpected other

/-- The members of an object, after its brace. -/
def readMembers (cs : List Char) : Except Stop (Followed (List (String × α))) :=
  match skipGaps cs with
  | [] => stopAtEnd .endInObject
  | '\x7d' :: rest => .ok ([], rest)
  | '"' :: rest => do
    let (m, rest) ← readMember item rest
    let (ms, rest) ← moreMembers item (rest.length + 1) rest
    return (m :: ms, rest)
  | other => stopAt .nameExpected other

end Sequences

/-- A value, in which arrays and objects enclose one another up to `depth` deep. -/
def readValue (depth : Nat) (cs : List Char) : Except Stop (Followed Located) :=
  let start := skipGaps cs
  match start with
  | [] => stopAtEnd .endInValue
  | 'n' :: rest => do
    let rest ← readLiteral ['u', 'l', 'l'] rest
    return (.scalar start .null, rest)
  | 't' :: rest => do
    let rest ← readLiteral ['r', 'u', 'e'] rest
    return (.scalar start (.bool true), rest)
  | 'f' :: rest => do
    let rest ← readLiteral ['a', 'l', 's', 'e'] rest
    return (.scalar start (.bool false), rest)
  | '"' :: rest => do
    let (s, rest) ← readString rest
    return (.scalar start (.string s), rest)
  | '-' :: rest => do
    let (n, rest) ← readNumber true rest
    return (.scalar start (.number n), rest)
  | '[' :: rest =>
    match depth with
    | 0 => stopAt .nestedTooDeep start
    | depth + 1 => do
      let (items, rest) ← readItems (readValue depth) rest
      return (.array start items, rest)
  | '\x7b' :: rest =>
    match depth with
    | 0 => stopAt .nestedTooDeep start
    | depth + 1 => do
      let (members, rest) ← readMembers (readValue depth) rest
      return (.object start members, rest)
  | c :: _ =>
    if c.isDigit then do
      let (n, rest) ← readNumber false start
      return (.scalar start (.number n), rest)
    else stopAt .valueExpected start

/-- How deep arrays and objects may enclose one another. -/
def maxDepth : Nat := 127

/-- A whole text: a value, and nothing but gaps after it. -/
def readWhole (depth : Nat) (text : List Char) : Except Stop Located := do
  let (value, rest) ← readValue depth text
  match skipGaps rest with
  | [] => return value
  | other => stopAt .trailingCharacters other

def readLocated (text : String) : Except ParseError Located :=
  (readWhole maxDepth text.toList).mapError (Stop.locate text.toList)

def read (text : String) : Except ParseError Json :=
  (readLocated text).map Located.toJson

end DeliveryRules.Json
