import DeliveryRules.Toml.Table

/-!
# Reading TOML keys and values

Each reader takes the characters to come and gives back those after what it read. A stop that is not
final says that there is no such thing here; one that is final, that there is one and it is broken.
-/

namespace DeliveryRules.Toml

/-- What was read, with the characters after it. -/
abbrev After (α : Type) := α × List Char

def stop {α : Type} (fault : Fault) (rest : List Char) : Except Stop α :=
  .error ⟨fault, rest, true⟩

def absent {α : Type} (fault : Fault) (rest : List Char) : Except Stop α :=
  .error ⟨fault, rest, false⟩

/-- Names what is being read to the faults in it. -/
def within {α : Type} (what : String) (x : Except Stop α) : Except Stop α :=
  x.mapError fun s => { s with fault := s.fault.inside what }

def expecting {α : Type} (names : List String) (x : Except Stop α) : Except Stop α :=
  x.mapError fun s => { s with fault := s.fault.orExpected names }

def isSpace (c : Char) : Bool := c = ' ' || c = '\t'

def skipSpace (cs : List Char) : List Char := cs.dropWhile isSpace

/-- A character of a comment: anything but control characters, tabs apart. -/
def isPlain (c : Char) : Bool := c = '\t' || (0x20 ≤ c.toNat && c.toNat ≠ 0x7F)

def skipComment (cs : List Char) : List Char :=
  match cs with
  | '#' :: rest => rest.dropWhile isPlain
  | _ => cs

/-- What follows a line break that is here. -/
def lineBreak? (cs : List Char) : Option (List Char) :=
  match cs with
  | '\n' :: rest => some rest
  | '\r' :: '\n' :: rest => some rest
  | _ => none

/-- Skips spaces, line breaks and comments. `fuel` bounds the number of lines. -/
def skipLines : Nat → List Char → List Char
  | 0, cs => cs
  | fuel + 1, cs =>
    let cs := skipComment (skipSpace cs)
    match lineBreak? cs with
    | some rest => skipLines fuel rest
    | none => cs

/-- The end of a line that holds nothing more but a comment. -/
def endLine (cs : List Char) : Except Stop (List Char) :=
  let cs := skipComment (skipSpace cs)
  match lineBreak? cs with
  | some rest => .ok rest
  | none => if cs.isEmpty then .ok [] else stop { expected := ["newline", "\x60#\x60"] } cs

/-! ## Strings -/

def hexDigit? (c : Char) : Option Nat :=
  if c.isDigit then some (c.toNat - '0'.toNat)
  else if 'a' ≤ c && c ≤ 'f' then some (c.toNat - 'a'.toNat + 10)
  else if 'A' ≤ c && c ≤ 'F' then some (c.toNat - 'A'.toNat + 10)
  else none

/-- The character whose number has exactly `width` hexadecimal digits. -/
def readCode (width : Nat) (cs : List Char) : Except Stop (After Char) :=
  let fault := stop { what := some s!"unicode {width}-digit hex code" } cs
  match (cs.take width).mapM hexDigit? with
  | none => fault
  | some digits =>
    let n := digits.foldl (fun n d => 16 * n + d) 0
    if digits.length < width then fault
    else if h : n.isValidChar then .ok (Char.ofNatAux n h, cs.drop width)
    else fault

/-- What follows a backslash. -/
def readEscape (cs : List Char) : Except Stop (After Char) :=
  match cs with
  | [] => absent {} []
  | 'b' :: rest => .ok ('\x08', rest)
  | 'f' :: rest => .ok ('\x0c', rest)
  | 'n' :: rest => .ok ('\n', rest)
  | 'r' :: rest => .ok ('\r', rest)
  | 't' :: rest => .ok ('\t', rest)
  | 'u' :: rest => readCode 4 rest
  | 'U' :: rest => readCode 8 rest
  | '\\' :: rest => .ok ('\\', rest)
  | '"' :: rest => .ok ('"', rest)
  | _ :: rest =>
    stop { what := some "escape sequence",
           expected := ["\x60b\x60", "\x60f\x60", "\x60n\x60", "\x60r\x60", "\x60t\x60",
             "\x60u\x60", "\x60U\x60", "\x60\\\x60", "\x60\"\x60"] } rest

/-- The characters of a basic string, after its quote. -/
def readBasic : Nat → List Char → Except Stop (After (List Char))
  | 0, cs => stop { what := some "basic string" } cs
  | fuel + 1, cs =>
    match cs with
    | '"' :: rest => .ok ([], rest)
    | '\\' :: rest =>
      match readEscape rest with
      | .ok (c, rest) => (readBasic fuel rest).map fun r => (c :: r.1, r.2)
      | .error s => if s.final then .error s else stop { what := some "basic string" } cs
    | c :: rest =>
      if isPlain c then (readBasic fuel rest).map fun r => (c :: r.1, r.2)
      else stop { what := some "basic string" } cs
    | [] => stop { what := some "basic string" } []

/-- The characters of a literal string, after its quote. -/
def readLiteral (cs : List Char) : Except Stop (After (List Char)) :=
  match cs.span fun c => isPlain c && c ≠ '\'' with
  | (chars, '\'' :: rest) => .ok (chars, rest)
  | (_, rest) => stop { what := some "literal string" } rest

/-- What follows a line break that is escaped: blanks and empty lines do not count. -/
def afterEscapedBreak? (cs : List Char) : Option (List Char) :=
  match lineBreak? (skipSpace cs) with
  | some rest => some (rest.dropWhile fun c => isSpace c || c = '\n' || c = '\r')
  | none => none

/-- Where three quotes or more are here: up to two that belong to the string, and what follows. -/
def closing? (quote : Char) (cs : List Char) : Option (After (List Char)) :=
  let quotes := cs.takeWhile (· = quote)
  if quotes.length < 3 then none
  else some (quotes.take (min 2 (quotes.length - 3)), cs.drop (min 5 quotes.length))

/-- The characters of a string of several lines, after its quotes. Only one that is not literal has
escapes. -/
def readLong (quote : Char) (literal : Bool) (what : String) :
    Nat → List Char → Except Stop (After (List Char))
  | 0, cs => stop { what := some what } cs
  | fuel + 1, cs =>
    match closing? quote cs, lineBreak? cs with
    | some r, _ => .ok r
    | none, some rest => (readLong quote literal what fuel rest).map fun r => ('\n' :: r.1, r.2)
    | none, none =>
      match cs with
      | [] => stop { what := some what } []
      | c :: rest =>
        if c = '\\' && !literal then
          match afterEscapedBreak? rest with
          | some rest => readLong quote literal what fuel rest
          | none =>
            match readEscape rest with
            | .ok (c, rest) => (readLong quote literal what fuel rest).map fun r => (c :: r.1, r.2)
            | .error s => if s.final then within what (.error s) else stop { what := some what } cs
        else if isPlain c then (readLong quote literal what fuel rest).map fun r => (c :: r.1, r.2)
        else stop { what := some what } cs

/-- A line break right after the quotes of a long string does not count. -/
def skipFirstBreak (cs : List Char) : List Char := (lineBreak? cs).getD cs

/-- A string whose quotes start here. -/
def readString? (cs : List Char) : Option (Except Stop (After (List Char))) :=
  let fuel := cs.length + 1
  match cs with
  | '"' :: '"' :: '"' :: rest =>
    some (readLong '"' false "multiline basic string" fuel (skipFirstBreak rest))
  | '"' :: rest => some (readBasic fuel rest)
  | '\'' :: '\'' :: '\'' :: rest =>
    some (readLong '\'' true "multiline literal string" fuel (skipFirstBreak rest))
  | '\'' :: rest => some (readLiteral rest)
  | _ => none

/-! ## Keys -/

def isBare (c : Char) : Bool := c.isAlphanum || c = '_' || c = '-'

/-- One name of a key. -/
def readName (cs : List Char) : Except Stop (After String) :=
  let text (r : After (List Char)) : After String := (String.ofList r.1, r.2)
  match cs with
  | '"' :: rest => (readBasic (rest.length + 1) rest).map text
  | '\'' :: rest => (readLiteral rest).map text
  | _ =>
    match cs.span isBare with
    | ([], _) => absent { what := some "key" } cs
    | found => .ok (text found)

/-- Further names of a key, each behind a point. -/
def moreNames : Nat → List Char → Except Stop (After (List String))
  | 0, cs => .ok ([], cs)
  | fuel + 1, cs =>
    match cs with
    | '.' :: rest =>
      match readName (skipSpace rest) with
      | .ok (name, rest) => (moreNames fuel (skipSpace rest)).map fun r => (name :: r.1, r.2)
      | .error s => if s.final then .error s else .ok ([], cs)
    | _ => .ok ([], cs)

/-- A key: names with points between them. -/
def readKey (cs : List Char) : Except Stop (After (List String)) := do
  let (name, rest) ← readName (skipSpace cs)
  let (names, rest) ← moreNames (rest.length + 1) (skipSpace rest)
  return (name :: names, rest)

/-- The sign between key and value. -/
def readEquals (cs : List Char) : Except Stop (List Char) :=
  match cs with
  | '=' :: rest => .ok rest
  | _ => stop { expected := ["\x60.\x60", "\x60=\x60"] } cs

/-! ## Numbers -/

private def missingDigit {α : Type} (rest : List Char) : Except Stop α :=
  stop { expected := ["digit"] } rest

/-- Further digits, which may have low lines between them. -/
def moreDigits (isDigit : Char → Bool) : List Char → Except Stop (After (List Char))
  | [] => .ok ([], [])
  | '_' :: c :: cs =>
    if isDigit c then (moreDigits isDigit cs).map fun r => (c :: r.1, r.2)
    else missingDigit (c :: cs)
  | '_' :: [] => missingDigit []
  | c :: cs =>
    if isDigit c then (moreDigits isDigit cs).map fun r => (c :: r.1, r.2)
    else .ok ([], c :: cs)

/-- Digits of which the first is here. -/
def readDigits (isDigit : Char → Bool) (cs : List Char) : Except Stop (After (List Char)) :=
  match cs with
  | c :: rest =>
    if isDigit c then (moreDigits isDigit rest).map fun r => (c :: r.1, r.2) else absent {} cs
  | [] => absent {} []

/-- The digits of a whole number. After a zero there are no more. -/
def readWhole (cs : List Char) : Except Stop (After (List Char)) :=
  within "integer" <|
    match cs with
    | '0' :: rest => .ok (['0'], rest)
    | _ => readDigits Char.isDigit cs

private def digitsValue (base : Nat) (digits : List Char) : Nat :=
  digits.foldl (fun n c => base * n + (hexDigit? c).getD 0) 0

/-- An integer of 64 bits, which started at `start`. -/
def integerOf (negative : Bool) (n : Nat) (start : List Char) (rest : List Char) :
    Except Stop (After Toml) :=
  if negative && n ≤ Nat.pow 2 63 then .ok (.integer (-(n : Int)), rest)
  else if n < Nat.pow 2 63 then .ok (.integer n, rest)
  else stop { cause := some (if negative then .tooSmall else .tooLarge) } start

/-- A whole number in another base, after the letter of the base. -/
def readBased (base : Nat) (isDigit : Char → Bool) (what : String) (start cs : List Char) :
    Except Stop (After Toml) := do
  let (digits, rest) ← (within what (readDigits isDigit cs)).mapError ({ · with final := true })
  integerOf false (digitsValue base digits) start rest

/-- What follows the digits of a number that is not an integer: its value. One that is too large is
refused, one that is too small is infinite. -/
def floatOf (negative : Bool) (digits : List Char) (exponent : Int) (start rest : List Char) :
    Except Stop (After Toml) :=
  let n := digitsValue 10 digits
  let x := if exponent < 0 then Float.ofScientific n true exponent.natAbs
    else Float.ofScientific n false exponent.toNat
  if negative then .ok (.float (-x), rest)
  else if x.isFinite then .ok (.float x, rest)
  else stop { what := some "floating-point number" } start

/-- The exponent of a number, after its letter. -/
def readExponent (cs : List Char) : Except Stop (After Int) := do
  let (negative, cs) := match cs with
    | '-' :: r => (true, r)
    | '+' :: r => (false, r)
    | r => (false, r)
  let (digits, rest) ← (readDigits Char.isDigit cs).mapError ({ · with final := true })
  let n : Int := digitsValue 10 digits
  return (if negative then -n else n, rest)

/-- What follows the whole part of a number. -/
def readRest (negative : Bool) (whole : List Char) (start cs : List Char) :
    Except Stop (After Toml) :=
  let float (x : Except Stop (After Toml)) := within "floating-point number" x
  let withExponent (digits : List Char) (places : Nat) (cs : List Char) :
      Except Stop (After Toml) := do
    let (e, rest) ← readExponent cs
    floatOf negative digits (e - places) start rest
  match cs with
  | '.' :: rest => float do
    let (places, rest) ← (expecting ["digit"] (readDigits Char.isDigit rest)).mapError
      ({ · with final := true })
    match rest with
    | 'e' :: r => withExponent (whole ++ places) places.length r
    | 'E' :: r => withExponent (whole ++ places) places.length r
    | r => floatOf negative (whole ++ places) (-(places.length : Int)) start r
  | 'e' :: rest => float (withExponent whole 0 rest)
  | 'E' :: rest => float (withExponent whole 0 rest)
  | _ => integerOf negative (digitsValue 10 whole) start cs

/-- A number, after its sign. -/
def readUnsigned (negative : Bool) (start cs : List Char) : Except Stop (After Toml) :=
  match cs with
  | 'i' :: 'n' :: 'f' :: rest =>
    .ok (.float ((if negative then -1.0 else 1.0) / 0.0), rest)
  | 'n' :: 'a' :: 'n' :: rest => .ok (.float (0.0 / 0.0), rest)
  | _ => do
    let (whole, rest) ← readWhole cs
    readRest negative whole start rest

def readNumber (cs : List Char) : Except Stop (After Toml) :=
  match cs with
  | '0' :: 'x' :: rest => readBased 16 (fun c => (hexDigit? c).isSome) "hexadecimal integer" cs rest
  | '0' :: 'o' :: rest => readBased 8 (fun c => '0' ≤ c && c ≤ '7') "octal integer" cs rest
  | '0' :: 'b' :: rest => readBased 2 (fun c => c = '0' || c = '1') "binary integer" cs rest
  | '+' :: rest => readUnsigned false cs rest
  | '-' :: rest => readUnsigned true cs rest
  | _ => readUnsigned false cs cs

/-! ## Dates and times -/

/-- The value of so many digits, if they are here. -/
def digits? (width : Nat) (cs : List Char) : Option (After Nat) :=
  let digits := cs.take width
  if digits.length = width && digits.all Char.isDigit then
    some (digitsValue 10 digits, cs.drop width)
  else none

private def outOfRange {α : Type} (rest : List Char) : Except Stop α :=
  stop { cause := some .outOfRange } rest

/-- A number of two digits between two limits. -/
def readPart (low high : Nat) (cs : List Char) : Except Stop (After Nat) :=
  match digits? 2 cs with
  | none => stop {} cs
  | some (n, rest) => if low ≤ n && n ≤ high then .ok (n, rest) else outOfRange cs

def readMark (mark : Char) (cs : List Char) : Except Stop (List Char) :=
  match Text.afterPrefix? [mark] cs with
  | some rest => .ok rest
  | none => stop {} cs

/-- What follows an hour and its colon, if they are here. -/
def afterHour? (cs : List Char) : Option (List Char) :=
  match digits? 2 cs with
  | some (n, ':' :: rest) => if n ≤ 23 then some rest else none
  | _ => none

/-- A time of day, after the colon behind its hour. -/
def readMinutes (cs : List Char) : Except Stop (List Char) := do
  let (_, rest) ← readPart 0 59 cs
  let rest ← readMark ':' rest
  let (_, rest) ← readPart 0 60 rest
  match rest with
  | '.' :: c :: more => return if c.isDigit then more.dropWhile Char.isDigit else rest
  | _ => return rest

/-- The distance from universal time, if it is here. -/
def readOffset (cs : List Char) : Except Stop (List Char) :=
  match cs with
  | 'Z' :: rest => .ok rest
  | 'z' :: rest => .ok rest
  | c :: rest =>
    if c = '+' || c = '-' then
      within "time offset" do
        let (_, rest) ← readPart 0 23 rest
        let rest ← readMark ':' rest
        let (_, rest) ← readPart 0 59 rest
        return rest
    else .ok cs
  | [] => .ok []

/-- How many days a month has. -/
def daysIn (year month : Nat) : Nat :=
  if month = 2 then
    if year % 4 = 0 && (year % 100 ≠ 0 || year % 400 = 0) then 29 else 28
  else if [4, 6, 9, 11].contains month then 30
  else 31

/-- A date, after the dash behind its year. A time of day may follow it. -/
def readDays (year : Nat) (cs : List Char) : Except Stop (List Char) := do
  let (month, rest) ← readPart 1 12 cs
  let days ← readMark '-' rest
  let (day, rest) ← readPart 1 31 days
  if daysIn year month < day then outOfRange days
  match rest with
  | c :: hour =>
    if c = 'T' || c = 't' || c = ' ' then
      match afterHour? hour with
      | some minutes => readMinutes minutes >>= readOffset
      | none => return rest
    else return rest
  | [] => return []

/-- A date or a time that starts here: four digits with a dash, or an hour with a colon. -/
def readDateTime? (cs : List Char) : Option (Except Stop (After Toml)) :=
  match digits? 4 cs, afterHour? cs with
  | some (year, '-' :: rest), _ =>
    some ((within "date-time" (readDays year rest)).map (.dateTime, ·))
  | _, some minutes => some ((within "time" (readMinutes minutes)).map (.dateTime, ·))
  | _, none => none

/-! ## Values -/

private def quotesExpected : List String := ["\x60\"\x60", "\x60'\x60"]

private def noValue (cs : List Char) : Except Stop (After Toml) :=
  absent { what := some "string", expected := quotesExpected } cs

/-- A word that starts here with its first letter; a broken word is taken for a string without
quotes. -/
def readWord (word : List Char) (value : Toml) (cs : List Char) : Except Stop (After Toml) :=
  match Text.afterPrefix? word cs with
  | some rest => .ok (value, rest)
  | none => stop { what := some "string", expected := quotesExpected } cs

/-- Items with commas between them. Where no item is, what follows is `otherwise`; `lastComma` says
whether a comma may stand behind the last item. -/
def readItems {α : Type} (item : List Char → Except Stop (After α)) (skip : List Char → List Char)
    (lastComma : Bool) : Nat → List Char → List Char → Except Stop (After (List α))
  | 0, otherwise, _ => .ok ([], otherwise)
  | fuel + 1, otherwise, cs =>
    match item (skip cs) with
    | .error s => if s.final then .error s else .ok ([], otherwise)
    | .ok (x, rest) =>
      match skip rest with
      | ',' :: more =>
        let otherwise := if lastComma then skip more else ',' :: more
        (readItems item skip lastComma fuel otherwise more).map fun r => (x :: r.1, r.2)
      | rest => .ok ([x], rest)

/-- A key with its value. -/
def readPair (value : List Char → Except Stop (After Toml)) (cs : List Char) :
    Except Stop (After (List String × Toml)) := do
  let (key, rest) ← readKey cs
  let rest ← readEquals rest
  let (v, rest) ← (value (skipSpace rest)).mapError ({ · with final := true })
  return ((key, v), rest)

/-- A value; `fuel` bounds how deep values nest. -/
def readValue : Nat → List Char → Except Stop (After Toml)
  | 0, cs => stop {} cs
  | fuel + 1, cs =>
    match readString? cs with
    | some r => r.map fun r => (.string (String.ofList r.1), r.2)
    | none =>
      match cs with
      | [] => absent {} []
      | '[' :: rest => do
        let skip := skipLines (cs.length + 1)
        let (items, rest) ← readItems (readValue fuel) skip true (cs.length + 1) (skip rest) rest
        match rest with
        | ']' :: rest => return (.array items, rest)
        | _ => stop { what := some "array", expected := ["\x60]\x60"] } rest
      | '\x7b' :: rest => do
        let (pairs, afterPairs) ← readItems (readPair (readValue fuel)) skipSpace false
          (cs.length + 1) (skipSpace rest) rest
        let t ← match inlineTable pairs with
          | .ok t => pure t
          | .error cause => absent { cause := some cause } rest
        match afterPairs with
        | '\x7d' :: rest => return (t, rest)
        | rest => stop { what := some "inline table", expected := ["\x60\x7d\x60"] } rest
      | 't' :: _ => readWord ['t', 'r', 'u', 'e'] (.bool true) cs
      | 'f' :: _ => readWord ['f', 'a', 'l', 's', 'e'] (.bool false) cs
      | 'i' :: 'n' :: 'f' :: rest => .ok (.float (1.0 / 0.0), rest)
      | 'n' :: 'a' :: 'n' :: rest => .ok (.float (0.0 / 0.0), rest)
      | '_' :: _ =>
        absent { what := some "integer", expected := ["leading digit"] } cs
      | '.' :: _ =>
        absent { what := some "floating-point number", expected := ["leading digit"] } cs
      | c :: _ =>
        if c = '+' || c = '-' || c.isDigit then
          match readDateTime? cs with
          | some r => r
          | none => readNumber cs
        else noValue cs

end DeliveryRules.Toml
