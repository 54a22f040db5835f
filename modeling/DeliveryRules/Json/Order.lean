import DeliveryRules.Json.Basic
import DeliveryRules.Decimal.Shortest

/-!
# Comparing JSON values

* `Number.exact`: the rational number that a number stands for. Numbers are compared by it, so that
  `1` and `1.0` are as large as each other.
* `Json.same`: equality of values that compares numbers in this way and asks no order of the members
  of an object.
-/

namespace DeliveryRules

namespace Decimal.Binary

/-- The value `m * 2 ^ q`. -/
def exact (b : Binary) : Rat :=
  if 0 ≤ b.q then mkRat (b.m * Nat.pow 2 b.q.toNat) 1 else mkRat b.m (Nat.pow 2 (-b.q).toNat)

end Decimal.Binary

namespace Number

def ofFloatExact (x : Float) : Rat :=
  let magnitude := (Decimal.Binary.ofFloat x).exact
  if Nat.pow 2 63 ≤ x.toBits.toNat then -magnitude else magnitude

def exact : Number → Rat
  | .int n => mkRat n 1
  | .float x => ofFloatExact x

def lt (a b : Number) : Bool := a.exact < b.exact

def same (a b : Number) : Bool := a.exact = b.exact

/-- The nearest binary64 value. -/
def toFloat : Number → Float
  | .int n => Float.ofInt n
  | .float x => x

def isWhole (a : Number) : Bool := a.exact.den = 1

/-- The natural number that a number stands for, also where it is written as `2.0`. -/
def natural? (a : Number) : Option Nat :=
  if a.isWhole && 0 ≤ a.exact.num then some a.exact.num.toNat else none

end Number

namespace Json

/-- Equality up to the writing of numbers and the order of members. -/
def same : Json → Json → Bool
  | .null, .null => true
  | .bool a, .bool b => a == b
  | .number a, .number b => a.same b
  | .string a, .string b => a == b
  | .array xs, .array ys => sameItems xs ys
  | .object ms, .object ns => ms.length == ns.length && within ms ns
  | _, _ => false
where
  sameItems : List Json → List Json → Bool
    | [], [] => true
    | x :: xs, y :: ys => same x y && sameItems xs ys
    | _, _ => false
  within : List (String × Json) → List (String × Json) → Bool
    | [], _ => true
    | (n, x) :: ms, ns =>
      (match Members.get? ns n with
        | some y => same x y
        | none => false) && within ms ns

/-- No item is the same as an earlier one. -/
def allDistinct : List Json → Bool
  | [] => true
  | x :: xs => !xs.any (same x) && allDistinct xs

end Json

end DeliveryRules
