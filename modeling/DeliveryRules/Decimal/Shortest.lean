/-!
# The shortest decimal of a binary64 value

A finite positive value is `m * 2 ^ q`. The reals that round to it form an interval, whose ends
belong to it when `m` is even. `shortest` takes the coarsest grid of powers of ten that has a point
in this interval, and of its points there the one nearest the value, so no decimal with fewer
digits reads back as the same value and none with as many is nearer.

All comparisons are of natural numbers: `c * 10 ^ k` is compared with `b * 2 ^ t` after both are
multiplied by what clears the negative exponents.
-/

namespace DeliveryRules

/-- The decimal `digits * 10 ^ exponent`. -/
structure Decimal where
  digits : Nat
  exponent : Int
deriving DecidableEq, Repr

namespace Decimal

/-- A positive binary64 value `m * 2 ^ q`. -/
structure Binary where
  m : Nat
  q : Int
deriving DecidableEq, Repr

/-- The magnitude of a finite value other than zero. -/
def Binary.ofFloat (x : Float) : Binary :=
  let bits := x.toBits.toNat % Nat.pow 2 63
  let biased := bits / Nat.pow 2 52
  let fraction := bits % Nat.pow 2 52
  if biased = 0 then ⟨fraction, -1074⟩ else ⟨Nat.pow 2 52 + fraction, Int.ofNat biased - 1075⟩

/-- The exponent of the smallest positive value. -/
def leastExponent : Int := -1074

namespace Binary

/-- The distance to the value below is half of that to the value above, where the exponent
changes. -/
def lopsided (b : Binary) : Bool :=
  b.m = Nat.pow 2 52 && leastExponent < b.q

/-- The interval that rounds to `b`, in quarters of its last place. -/
def bounds (b : Binary) : Nat × Nat :=
  (4 * b.m - (if b.lopsided then 1 else 2), 4 * b.m + 2)

/-- What a grid point of `10 ^ k` is multiplied by. -/
def gridScale (b : Binary) (k : Int) : Nat :=
  Nat.pow 10 k.toNat * Nat.pow 2 (2 - b.q).toNat

/-- What a quarter of the last place of `b` is multiplied by, so as to be compared with a scaled
grid point. -/
def quarterScale (b : Binary) (k : Int) : Nat :=
  Nat.pow 2 (b.q - 2).toNat * Nat.pow 10 (-k).toNat

/-- Whether `c * 10 ^ k` rounds to `b`. -/
def holds (b : Binary) (k : Int) (c : Nat) : Bool :=
  let point := c * b.gridScale k
  let low := b.bounds.1 * b.quarterScale k
  let high := b.bounds.2 * b.quarterScale k
  if b.m % 2 = 0 then low ≤ point && point ≤ high else low < point && point < high

/-- The point of the grid `10 ^ k` that rounds to `b`, the nearer where its two neighbours both
do, and of two equally near ones the even one. -/
def onGrid? (b : Binary) (k : Int) : Option Nat :=
  let value := 4 * b.m * b.quarterScale k
  let unit := b.gridScale k
  let below := value / unit
  let above := below + 1
  let toBelow := value - below * unit
  let toAbove := above * unit - value
  match b.holds k below && below != 0, b.holds k above with
  | true, true =>
    if toBelow < toAbove || (toBelow = toAbove && below % 2 = 0) then some below else some above
  | true, false => some below
  | false, true => some above
  | false, false => none

/-- The first of the grids `10 ^ k`, `10 ^ (k - 1)`, … with a point that rounds to `b`. -/
def coarsest (b : Binary) (k : Int) : Nat → Decimal
  | 0 => ⟨b.m, k⟩
  | n + 1 =>
    match b.onGrid? k with
    | some c => ⟨c, k⟩
    | none => coarsest b (k - 1) n

/-- No value exceeds `10 ^ 309`, and every one has neighbours farther than `10 ^ (-325)`. -/
def shortest (b : Binary) : Decimal :=
  b.coarsest 309 640

end Binary

end Decimal

end DeliveryRules
