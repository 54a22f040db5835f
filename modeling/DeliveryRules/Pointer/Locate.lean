import DeliveryRules.Pointer.Basic
import DeliveryRules.Json.Reader
import DeliveryRules.Text.Line

/-!
# Where a pointer leads in a JSON text

`locate` follows a pointer through a text without reading the text as a whole, so that it can say
where a part starts, and also works up to the place where a text is broken. What lies beside the way
is skipped without being checked much.

* `literal?`, `skipValue`: what reads a string, and what gets past a value.
* `enter?`: from the start of a value to that of the part that a token names.
* `walk`: as many tokens as lead somewhere.
-/

namespace DeliveryRules.Pointer

open Json (isGap skipGaps hexUnit? isHighSurrogate isLowSurrogate pairedChar)

/-- What stands for a surrogate that is not half of a pair. -/
def replacementChar : Char := '\uFFFD'

/-- Four hexadecimal digits, or a plus sign and three. -/
def unit? (a b c d : Char) : Option Nat :=
  if a = '+' then hexUnit? '0' b c d else hexUnit? a b c d

/-- The character of an escape whose digits start here. After a high surrogate that no low one
follows, the next escape is left for itself. -/
def codePoint? (cs : List Char) : Option (Char × List Char) :=
  match cs with
  | a :: b :: c :: d :: rest => do
    let high ← unit? a b c d
    if isHighSurrogate high then
      match rest with
      | '\\' :: 'u' :: after =>
        match after with
        | e :: f :: g :: h :: after => do
          let low ← unit? e f g h
          if isLowSurrogate low then some (pairedChar high low, after)
          else some (replacementChar, rest)
        | _ => none
      | _ => some (replacementChar, rest)
    else if isLowSurrogate high then some (replacementChar, rest)
    else some (Char.ofNat high, rest)
  | _ => none

/-- The character that an escape stands for, after its backslash. -/
def escapeChar? (cs : List Char) : Option (Char × List Char) :=
  match cs with
  | [] => none
  | 'n' :: rest => some ('\n', rest)
  | 't' :: rest => some ('\t', rest)
  | 'r' :: rest => some ('\r', rest)
  | 'b' :: rest => some ('\x08', rest)
  | 'f' :: rest => some ('\x0c', rest)
  | 'u' :: rest => codePoint? rest
  | c :: rest => some (c, rest)

/-- The characters of a string, after its opening quote. `fuel` bounds their number. -/
def chars? : Nat → List Char → Option (List Char × List Char)
  | 0, _ => none
  | _ + 1, [] => none
  | fuel + 1, c :: rest =>
    if c = '"' then some ([], rest)
    else if c = '\\' then do
      let (d, rest) ← escapeChar? rest
      let (ds, after) ← chars? fuel rest
      return (d :: ds, after)
    else do
      let (ds, after) ← chars? fuel rest
      return (c :: ds, after)

/-- A string with its quotes. -/
def literal? (cs : List Char) : Option (List Char × List Char) :=
  match cs with
  | '"' :: rest => chars? (rest.length + 1) rest
  | _ => none

/-- What follows `c`, if that comes next. -/
def after? (c : Char) (cs : List Char) : Option (List Char) :=
  match skipGaps cs with
  | d :: rest => if d = c then some rest else none
  | [] => none

/-- What ends a value that is no string, array or object. -/
def endsScalar (c : Char) : Bool :=
  c = ',' || c = ']' || c = '\x7d' || isGap c

/-- What a name and its colon are followed by. -/
def pastName (cs : List Char) : Option (List Char) := do
  let (_, rest) ← literal? (skipGaps cs)
  after? ':' rest

/-- What follows the parts of an array or object up to `close`, given what leads up to a part and
what gets past it. `fuel` bounds the number of parts. -/
def skipParts (lead skip : List Char → Option (List Char)) (close : Char) :
    Nat → List Char → Option (List Char)
  | 0, _ => none
  | fuel + 1, cs => do
    let rest ← lead cs
    let rest ← skip rest
    match after? ',' rest with
    | some rest => skipParts lead skip close fuel rest
    | none => after? close rest

/-- What follows a value in which arrays and objects enclose one another up to `depth` deep. -/
def skipNested (depth : Nat) (cs : List Char) : Option (List Char) :=
  match skipGaps cs with
  | [] => none
  | '"' :: rest => (literal? ('"' :: rest)).map (·.2)
  | '[' :: rest =>
    match depth with
    | 0 => none
    | depth + 1 =>
      (after? ']' rest).or (skipParts some (skipNested depth) ']' (rest.length + 1) rest)
  | '\x7b' :: rest =>
    match depth with
    | 0 => none
    | depth + 1 =>
      (after? '\x7d' rest).or
        (skipParts pastName (skipNested depth) '\x7d' (rest.length + 1) rest)
  | scalar => some (scalar.dropWhile (!endsScalar ·))

def skipValue (cs : List Char) : Option (List Char) :=
  skipNested cs.length cs

/-- The start of the first value under the name `token`, among the members that start here. -/
def memberStart? (token : List Char) : Nat → List Char → Option (List Char)
  | 0, _ => none
  | fuel + 1, cs => do
    let (name, rest) ← literal? (skipGaps cs)
    let rest ← after? ':' rest
    if name = token then some (skipGaps rest)
    else
      let rest ← skipValue rest
      let rest ← after? ',' rest
      memberStart? token fuel rest

/-- The start of the item after `index` others. -/
def itemStart? : Nat → List Char → Option (List Char)
  | 0, cs => some (skipGaps cs)
  | index + 1, cs => do
    let rest ← skipValue cs
    let rest ← after? ',' rest
    itemStart? index rest

/-- The start of the part that `token` names, from that of a value. -/
def enter? (token : String) (cs : List Char) : Option (List Char) :=
  match skipGaps cs with
  | '\x7b' :: rest =>
    match after? '\x7d' rest with
    | some _ => none
    | none => memberStart? token.toList (rest.length + 1) rest
  | '[' :: rest => do
    let index ← index? token
    match after? ']' rest with
    | some _ => none
    | none => itemStart? index rest
  | _ => none

/-- Where the longest way along the tokens ends, and whether it takes all of them. -/
def walk (start : List Char) : List String → List Char × Bool
  | [] => (start, true)
  | t :: ts =>
    match enter? t start with
    | some next => walk next ts
    | none => (start, false)

/-- A place in a text. -/
structure TextPosition where
  /-- In UTF-8 bytes. -/
  offset : Nat
  line : Nat
  /-- Whether the whole pointer leads there. -/
  exact : Bool
deriving DecidableEq, Repr

def locate (text : String) (tokens : List String) : TextPosition :=
  let chars := text.toList
  let (rest, exact) := walk (skipGaps chars) tokens
  let offset := Text.byteCount chars - Text.byteCount rest
  ⟨offset, Text.lineAt chars offset, exact⟩

end DeliveryRules.Pointer
