/-
The shortest decimal of a binary floating-point number.

A finite number with the significand `m` and the exponent `q` stands for `m * 2 ^ q`,
and every real between the midpoints to its two neighbours rounds to it, the
midpoints included if `m` is even. Of the decimals in that interval the one with the
fewest digits is wanted, and of those the nearest. On the grid of the multiples of a
power of ten, it is enough to test the two points around the number.
-/

set_option autoImplicit false

namespace CodeAtlas.Decimal

/-- A finite binary number without its sign, `significand * 2 ^ exponent`. The lower
neighbour is only half as far away as the upper one where `narrow` holds. -/
structure Binary where
  significand : Nat
  exponent : Int
  narrow : Bool
  deriving DecidableEq, Repr

/-- Decodes the bits of a finite number. -/
def Binary.ofBits (bits : UInt64) : Binary :=
  let n := bits.toNat
  let fraction : Nat := n % Nat.pow 2 52
  let biased : Nat := (n / Nat.pow 2 52) % Nat.pow 2 11
  if biased = 0 then ⟨fraction, -1074, false⟩
  else ⟨Nat.pow 2 52 + fraction, (biased : Int) - 1075, fraction = 0 && 1 < biased⟩

/-- A decimal, `digits * 10 ^ exponent`. -/
structure Scaled where
  digits : Nat
  exponent : Int
  deriving DecidableEq, Repr

/-- The number and the borders of its interval as multiples of one unit. The unit is
`2 ^ (exponent - 2)`, times the denominator over the numerator of a power of ten. -/
structure Interval where
  low : Nat
  value : Nat
  high : Nat
  unit : Nat
  closed : Bool

/-- The interval of a binary number on the grid of the multiples of `10 ^ k`: a grid
point `d` lies at `d * unit`. -/
def Binary.interval (b : Binary) (k : Int) : Interval :=
  let shift := b.exponent - 2
  let scale := Nat.pow 2 shift.toNat * Nat.pow 10 (-k).toNat
  { low := (4 * b.significand - if b.narrow then 1 else 2) * scale,
    value := 4 * b.significand * scale,
    high := (4 * b.significand + 2) * scale,
    unit := Nat.pow 2 (-shift).toNat * Nat.pow 10 k.toNat,
    closed := b.significand % 2 = 0 }

def Interval.holds (i : Interval) (d : Nat) : Bool :=
  let x := d * i.unit
  if i.closed then i.low ≤ x && x ≤ i.high else i.low < x && x < i.high

/-- The point of the grid in the interval that is nearest to the number; of two points
equally near, the even one. -/
def Interval.nearest? (i : Interval) : Option Nat :=
  let below := i.value / i.unit
  let above := below + 1
  let gapBelow := i.value - below * i.unit
  let gapAbove := above * i.unit - i.value
  let belowFirst := gapBelow < gapAbove || (gapBelow = gapAbove && below % 2 = 0)
  let candidates := if belowFirst then [below, above] else [above, below]
  candidates.find? fun d => 0 < d && i.holds d

/-- The decimal on the coarsest grid from `10 ^ k` down that has a point in the interval;
`fuel` grids are tried. -/
def Binary.search (b : Binary) (k : Int) : Nat → Scaled
  | 0 => ⟨b.significand, b.exponent⟩
  | fuel + 1 =>
    match (b.interval k).nearest? with
    | some d => ⟨d, k⟩
    | none => b.search (k - 1) fuel

/-- The power of ten that the number is certainly below. -/
def Binary.magnitude (b : Binary) : Int :=
  let bits : Int := b.significand.log2 + 1 + b.exponent
  bits * 30103 / 100000 + 1

/-- The shortest decimal that reads back as the number. -/
def shortest (b : Binary) : Scaled :=
  if b.significand = 0 then ⟨0, 0⟩ else b.search b.magnitude 20

end CodeAtlas.Decimal
