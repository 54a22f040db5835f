import DeliveryRules.Pointer.Locate

/-!
# Following a pointer byte by byte

`locate` goes through the characters of a text. `Cursor.locate` does so with a cursor that counts
bytes and sees one byte at a time. Such a cursor could come to stand within a character, take a
piece of the text that ends within one, or go on for ever. It is told apart here whether it does.

* `Cursor.Stop`: why nothing is found, or nothing can be.
* `Cursor.Run`: what is found, and the bytes that were taken to be escaped on the way.
* `Cursor.skipValue`, `Cursor.enter`, `Cursor.walk`: as in `locate`, on positions.
-/

namespace DeliveryRules.Pointer.Cursor

open Json (isGap isHighSurrogate isLowSurrogate pairedChar)

inductive Stop where
  /-- The pointer leads nowhere. -/
  | lost
  /-- A piece of the text begins or ends within a character, or ends past the text. -/
  | torn
  /-- More steps were taken than the text has bytes. -/
  | endless
deriving DecidableEq, Repr

structure Run (α : Type) where
  /-- The bytes that came right after a backslash in a string. -/
  escaped : List UInt8
  outcome : Except Stop α

namespace Run

variable {α β : Type}

instance : Monad Run where
  pure a := ⟨[], .ok a⟩
  bind x f :=
    match x.outcome with
    | .ok a => ⟨x.escaped ++ (f a).escaped, (f a).outcome⟩
    | .error s => ⟨x.escaped, .error s⟩

def stop (s : Stop) : Run α := ⟨[], .error s⟩

def note (b : UInt8) : Run Unit := ⟨[b], .ok ()⟩

def ofOption (s : Stop) (x : Option α) : Run α := x.elim (stop s) pure

/-- Goes on with what was found, or with nothing where the way was lost. -/
def settle (x : Run α) (f : Option α → Run β) : Run β :=
  match x.outcome with
  | .ok a => ⟨x.escaped ++ (f (some a)).escaped, (f (some a)).outcome⟩
  | .error .lost => ⟨x.escaped ++ (f none).escaped, (f none).outcome⟩
  | .error s => ⟨x.escaped, .error s⟩

end Run

/-! ## Bytes -/

def bytes (text : List Char) : List UInt8 := text.flatMap String.utf8EncodeChar

/-- The character with the number of the byte, which is the one encoded if the byte is ASCII. -/
def asChar (b : UInt8) : Char := Char.ofNat b.toNat

/-- The characters in the first `count` bytes, unless these end within a character. -/
def upTo? : Nat → List Char → Option (List Char)
  | 0, _ => some []
  | _ + 1, [] => none
  | count + 1, c :: cs =>
    if c.utf8Size ≤ count + 1 then (upTo? (count + 1 - c.utf8Size) cs).map (c :: ·) else none

/-- The characters after the first `count` bytes, unless these end within a character. -/
def from? : Nat → List Char → Option (List Char)
  | 0, cs => some cs
  | _ + 1, [] => none
  | count + 1, c :: cs => if c.utf8Size ≤ count + 1 then from? (count + 1 - c.utf8Size) cs else none

variable (text : List Char)

/-- The piece of the text between two positions. -/
def slice? (first last : Nat) : Option (List Char) :=
  if first ≤ last then (from? first text).bind (upTo? (last - first)) else none

def peek (pos : Nat) : Option UInt8 := (bytes text)[pos]?

/-- The next byte, which has to be there. -/
def next (pos : Nat) : Run UInt8 := .ofOption .lost (peek text pos)

/-- The position after the bytes from here on that satisfy `p`. -/
def skipWhile (p : Char → Bool) (pos : Nat) : Nat :=
  pos + (((bytes text).drop pos).takeWhile fun b => p (asChar b)).length

def skipGaps (pos : Nat) : Nat := skipWhile text isGap pos

/-- Whether `c` comes after the gaps, and the position after it or else after the gaps. -/
def eat (c : Char) (pos : Nat) : Bool × Nat :=
  let pos := skipGaps text pos
  if (peek text pos).map asChar = some c then (true, pos + 1) else (false, pos)

/-- The position after `c`, which has to come after the gaps. -/
def expect (c : Char) (pos : Nat) : Run Nat :=
  match eat text c pos with
  | (true, pos) => pure pos
  | (false, _) => .stop .lost

/-- More steps than any loop over the bytes of the text takes. -/
def fuel : Nat := (bytes text).length + 1

/-! ## Strings -/

def unit (pos : Nat) : Run Nat :=
  match slice? text pos (pos + 4) with
  | some [a, b, c, d] => .ofOption .lost (unit? a b c d)
  | _ => .stop .lost

/-- The character with this number, which may be that of a surrogate. -/
def ofUnit (n : Nat) : Char :=
  if isHighSurrogate n || isLowSurrogate n then replacementChar else Char.ofNat n

/-- The character of an escape whose digits start here, and the position after it. -/
def codePoint (pos : Nat) : Run (Char × Nat) := do
  let high ← unit text pos
  if isHighSurrogate high && slice? text (pos + 4) (pos + 6) = some ['\\', 'u'] then
    let low ← unit text (pos + 6)
    if isLowSurrogate low then return (pairedChar high low, pos + 10)
    else return (ofUnit high, pos + 4)
  else return (ofUnit high, pos + 4)

/-- The character that an escape stands for, after its backslash. -/
def escape (pos : Nat) : Run (Char × Nat) := do
  let b ← next text pos
  Run.note b
  match asChar b with
  | 'n' => return ('\n', pos + 1)
  | 't' => return ('\t', pos + 1)
  | 'r' => return ('\r', pos + 1)
  | 'b' => return ('\x08', pos + 1)
  | 'f' => return ('\x0c', pos + 1)
  | 'u' => codePoint text (pos + 1)
  | c => return (c, pos + 1)

def isPlain (c : Char) : Bool := c ≠ '"' && c ≠ '\\'

/-- The characters of a string, after its opening quote, and the position after it. -/
def chars : Nat → Nat → Run (List Char × Nat)
  | 0, _ => .stop .endless
  | fuel + 1, first => do
    let last := skipWhile text isPlain first
    let b ← next text last
    let run ← Run.ofOption .torn (slice? text first last)
    if asChar b = '"' then return (run, last + 1)
    else do
      let (c, pos) ← escape text (last + 1)
      let (cs, pos) ← chars fuel pos
      return (run ++ c :: cs, pos)

/-- A string with its quotes. -/
def literal (pos : Nat) : Run (List Char × Nat) := do
  let b ← next text pos
  if asChar b = '"' then chars text (fuel text) (pos + 1) else .stop .lost

/-! ## Values -/

def pastName (pos : Nat) : Run Nat := do
  let (_, pos) ← literal text pos
  expect text ':' pos

/-- The position after the parts of an array or object, given what leads up to a part and what gets
past it. -/
def skipParts (lead skip : Nat → Run Nat) (close : Char) : Nat → Nat → Run Nat
  | 0, _ => .stop .endless
  | fuel + 1, pos => do
    let pos ← lead (skipGaps text pos)
    let pos ← skip pos
    match eat text ',' pos with
    | (true, pos) => skipParts lead skip close fuel pos
    | (false, pos) => expect text close pos

/-- The position after a value. -/
def skipValue (depth : Nat) (pos : Nat) : Run Nat := do
  let pos := skipGaps text pos
  let b ← next text pos
  if asChar b = '"' then
    let (_, pos) ← literal text pos
    return pos
  else if asChar b = '[' then
    match depth with
    | 0 => .stop .endless
    | depth + 1 =>
      match eat text ']' (pos + 1) with
      | (true, pos) => return pos
      | (false, pos) => skipParts text pure (skipValue depth) ']' (fuel text) pos
  else if asChar b = '\x7b' then
    match depth with
    | 0 => .stop .endless
    | depth + 1 =>
      match eat text '\x7d' (pos + 1) with
      | (true, pos) => return pos
      | (false, pos) => skipParts text (pastName text) (skipValue depth) '\x7d' (fuel text) pos
  else return skipWhile text (!endsScalar ·) pos

/-- The start of the first value under the name `token`, among the members that start here. -/
def memberStart (token : List Char) : Nat → Nat → Run Nat
  | 0, _ => .stop .endless
  | fuel + 1, pos => do
    let (name, pos) ← literal text (skipGaps text pos)
    let pos ← expect text ':' pos
    let pos := skipGaps text pos
    if name = token then return pos
    else do
      let pos ← skipValue text (Cursor.fuel text) pos
      let pos ← expect text ',' pos
      memberStart token fuel pos

/-- The start of the item after `index` others. -/
def itemStart : Nat → Nat → Nat → Run Nat
  | _, 0, pos => return skipGaps text pos
  | 0, _ + 1, _ => .stop .endless
  | fuel + 1, index + 1, pos => do
    let pos ← skipValue text (Cursor.fuel text) (skipGaps text pos)
    let pos ← expect text ',' pos
    itemStart fuel index pos

/-- The start of the part that `token` names, from that of a value. -/
def enter (token : String) (pos : Nat) : Run Nat := do
  let pos := skipGaps text pos
  let b ← next text pos
  if asChar b = '\x7b' then
    match eat text '\x7d' (pos + 1) with
    | (true, _) => .stop .lost
    | (false, pos) => memberStart text token.toList (fuel text) pos
  else if asChar b = '[' then do
    let index ← Run.ofOption .lost (index? token)
    match eat text ']' (pos + 1) with
    | (true, _) => .stop .lost
    | (false, pos) => itemStart text (fuel text) index pos
  else .stop .lost

/-- Where the longest way along the tokens ends, and whether it takes all of them. -/
def walk (pos : Nat) : List String → Run (Nat × Bool)
  | [] => return (pos, true)
  | t :: ts =>
    (enter text t pos).settle fun
      | some pos => walk pos ts
      | none => return (pos, false)

/-- The line of the byte at `offset`. -/
def lineAt (offset : Nat) : Nat := ((bytes text).take offset).count 10 + 1

def locate (text : String) (tokens : List String) : Run TextPosition := do
  let (offset, exact) ← walk text.toList (skipGaps text.toList 0) tokens
  return ⟨offset, lineAt text.toList offset, exact⟩

end DeliveryRules.Pointer.Cursor
