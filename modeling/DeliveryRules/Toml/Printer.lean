import DeliveryRules.Toml.Basic

/-!
# Writing TOML strings

A string is written in the first of these forms that it has without escapes: in double quotes, in
single quotes, in three double quotes, in three single quotes. Else it is written with escapes. A
tab is escaped where escapes are possible, but does not ask for them. Behind three quotes a line
break is written if the string has line breaks.
-/

namespace DeliveryRules.Toml

/-- The greatest number of characters `c` in a row. -/
def longestRun (c : Char) (cs : List Char) : Nat :=
  go 0 cs
where
  go (run : Nat) : List Char → Nat
    | [] => run
    | d :: ds => if d = c then go (run + 1) ds else max run (go 0 ds)

/-- A control character that is written with its number or a letter. -/
def needsCode (c : Char) : Bool :=
  (c.toNat < 0x20 && c ≠ '\t' && c ≠ '\n') || c.toNat = 0x7F

private def upperHex (n : Nat) : Char :=
  Char.ofNat (if n < 10 then '0'.toNat + n else 'A'.toNat + (n - 10))

/-- A character behind a backslash, if it has to be. -/
def escaped? (long : Bool) (c : Char) : Option (List Char) :=
  if c = '\x08' then some ['\\', 'b']
  else if c = '\t' then some ['\\', 't']
  else if c = '\n' then if long then none else some ['\\', 'n']
  else if c = '\x0c' then some ['\\', 'f']
  else if c = '\r' then some ['\\', 'r']
  else if c = '\\' then some ['\\', '\\']
  else if needsCode c then
    some ['\\', 'u', '0', '0', upperHex (c.toNat / 16), upperHex (c.toNat % 16)]
  else none

/-- The characters between double quotes. Of double quotes in a row as many as `room` stay as they
are; `run` is their number so far. -/
def basicChars (long : Bool) (room : Nat) : Nat → List Char → List Char
  | _, [] => []
  | run, c :: cs =>
    if c = '"' then
      if run < room then '"' :: basicChars long room (run + 1) cs
      else '\\' :: '"' :: basicChars long room 0 cs
    else
      match escaped? long c with
      | some chars => chars ++ basicChars long room 0 cs
      | none => c :: basicChars long room 0 cs

def basic (cs : List Char) : List Char := '"' :: basicChars false 0 0 cs ++ ['"']

private def threeTimes (c : Char) : List Char := [c, c, c]

private def lead (cs : List Char) : List Char := if cs.contains '\n' then ['\n'] else []

def longBasic (cs : List Char) : List Char :=
  threeTimes '"' ++ lead cs ++ basicChars true 2 0 cs ++ threeTimes '"'

def writtenChars (cs : List Char) : List Char :=
  let codes := cs.any needsCode
  let escapes := codes || cs.contains '\\'
  let lines := cs.contains '\n'
  let double := longestRun '"' cs
  let single := longestRun '\'' cs
  if !escapes && double = 0 && !lines then basic cs
  else if !codes && single = 0 && !lines then '\'' :: cs ++ ['\'']
  else if !escapes && double ≤ 2 then longBasic cs
  else if !codes && single ≤ 2 then threeTimes '\'' ++ lead cs ++ cs ++ threeTimes '\''
  else if lines then longBasic cs
  else basic cs

def written (s : String) : String := String.ofList (writtenChars s.toList)

end DeliveryRules.Toml
