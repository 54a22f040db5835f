import DeliveryRules.Json.Basic
import DeliveryRules.Json.Fault

/-!
# Reading a JSON number

Digits are gathered into a significand as long as it fits 64 bits; the digits after that only
count places. An integer that fits stays one. Any other number is the significand, rounded to
binary64, times or divided by a power of ten, which is itself rounded: numbers of many digits may
miss the nearest value by a last place.
-/

namespace DeliveryRules.Json

/-- What was read, with the characters after it. -/
abbrev Followed (α : Type) := α × List Char

/-- Stops at the next byte. -/
def stopAt {α : Type} (fault : Fault) (rest : List Char) : Except Stop α :=
  .error ⟨fault, rest, 1⟩

def stopAtEnd {α : Type} (fault : Fault) : Except Stop α :=
  .error ⟨fault, [], 0⟩

/-- The greatest significand. -/
def maxSignificand : Nat := Nat.pow 2 64 - 1

def digitValue (c : Char) : Nat := c.toNat - '0'.toNat

/-- Gathers digits into `significand`, up to one with which it would exceed `limit`. The first
component is the significand, the second the number of digits gathered. -/
def gather (limit : Nat) : Nat → Nat → List Char → (Nat × Nat) × List Char
  | significand, count, [] => ((significand, count), [])
  | significand, count, c :: cs =>
    if c.isDigit && significand * 10 + digitValue c ≤ limit then
      gather limit (significand * 10 + digitValue c) (count + 1) cs
    else ((significand, count), c :: cs)

def startsWithDigit : List Char → Bool
  | c :: _ => c.isDigit
  | [] => false

/-- A number as read: `significand * 10 ^ exponent`, the significand below `2 ^ 64`. -/
structure Parts where
  significand : Nat
  exponent : Int
deriving DecidableEq, Repr

/-- The greatest power of ten that binary64 can hold. -/
def maxTenth : Nat := 308

def tenTo (n : Nat) : Float := Float.ofScientific 1 false n

/-- `x * 10 ^ e`, if it is finite. Far below one, the division goes in steps. -/
def scaled (x : Float) (e : Int) : Option Float :=
  if 0 ≤ e then
    if e ≤ maxTenth then
      let y := x * tenTo e.toNat
      if y.isFinite then some y else none
    else if x == 0 then some x else none
  else if -maxTenth ≤ e then some (x / tenTo e.natAbs)
  else if x == 0 then some x
  else scaled (x / tenTo maxTenth) (e + maxTenth)
termination_by e.natAbs
decreasing_by simp only [maxTenth] at *; omega

def Parts.value (negative : Bool) (p : Parts) : Option Float :=
  (scaled (Float.ofNat p.significand) p.exponent).map fun x => if negative then -x else x

/-- The value of `parts`, after which `rest` follows. -/
def floatOf (negative : Bool) (parts : Parts) (rest : List Char) : Except Stop (Followed Number) :=
  match parts.value negative with
  | some x => .ok (.float x, rest)
  | none => .error ⟨.numberOutOfRange, rest, 0⟩

/-- The greatest exponent that is read as a number. -/
def maxExponent : Nat := Nat.pow 2 31 - 1

/-- Whether an exponent is negative, and its digits. -/
def exponentSign : List Char → Bool × List Char
  | '+' :: r => (false, r)
  | '-' :: r => (true, r)
  | r => (false, r)

/-- The digits of an exponent, which is negative where `down` says so. -/
def readExponentDigits (negative : Bool) (parts : Parts) (down : Bool) (cs : List Char) :
    Except Stop (Followed Number) :=
  match cs with
  | [] => stopAtEnd .endInValue
  | c :: _ =>
    if c.isDigit then
      let ((e, _), rest) := gather maxExponent 0 0 cs
      if startsWithDigit rest then
        if parts.significand ≠ 0 && !down then .error ⟨.numberOutOfRange, rest, 1⟩
        else .ok (.float (if negative then -0.0 else 0.0), rest.dropWhile Char.isDigit)
      else
        floatOf negative
          { parts with exponent := parts.exponent + (if down then -(e : Int) else e) } rest
    else stopAt .invalidNumber cs

/-- What follows the letter of an exponent. -/
def readExponent (negative : Bool) (parts : Parts) (cs : List Char) :
    Except Stop (Followed Number) :=
  readExponentDigits negative parts (exponentSign cs).1 (exponentSign cs).2

/-- What follows the point. -/
def readFraction (negative : Bool) (parts : Parts) (cs : List Char) :
    Except Stop (Followed Number) :=
  let ((significand, places), rest) := gather maxSignificand parts.significand 0 cs
  if places = 0 && !startsWithDigit rest then
    if rest.isEmpty then stopAtEnd .endInValue else stopAt .invalidNumber rest
  else
    let parts : Parts := ⟨significand, parts.exponent - places⟩
    match rest.dropWhile Char.isDigit with
    | 'e' :: r => readExponent negative parts r
    | 'E' :: r => readExponent negative parts r
    | r => floatOf negative parts r

/-- What follows the digits of the integer part. -/
def readTail (negative : Bool) (parts : Parts) (whole : Number) (cs : List Char) :
    Except Stop (Followed Number) :=
  match cs with
  | '.' :: r => readFraction negative parts r
  | 'e' :: r => readExponent negative parts r
  | 'E' :: r => readExponent negative parts r
  | r => .ok (whole, r)

/-- An integer that fits 64 bits. Zero with a sign and what is below `-2 ^ 63` do not. -/
def wholeNumber (negative : Bool) (significand : Nat) : Number :=
  if negative then
    if 0 < significand && significand ≤ Nat.pow 2 63 then .int (-significand)
    else .float (-(Float.ofNat significand))
  else .int significand

/-- A number without its sign. -/
def readNumber (negative : Bool) (cs : List Char) : Except Stop (Followed Number) :=
  match cs with
  | [] => stopAtEnd .endInValue
  | '0' :: r =>
    if startsWithDigit r then stopAt .invalidNumber r
    else readTail negative ⟨0, 0⟩ (wholeNumber negative 0) r
  | c :: _ =>
    if c.isDigit then
      let ((significand, _), rest) := gather maxSignificand 0 0 cs
      if startsWithDigit rest then
        let dropped := (rest.takeWhile Char.isDigit).length
        let parts : Parts := ⟨significand, dropped⟩
        match rest.dropWhile Char.isDigit with
        | '.' :: r => readFraction negative parts r
        | 'e' :: r => readExponent negative parts r
        | 'E' :: r => readExponent negative parts r
        | r => floatOf negative parts r
      else readTail negative ⟨significand, 0⟩ (wholeNumber negative significand) rest
    else stopAt .invalidNumber cs

end DeliveryRules.Json
