import TreeTraversal.Number.Binary64

/-!
# Shortest decimals

Among the decimals that read back as a given double, the ones with the fewest digits lie on the
coarsest grid of powers of ten that has a point in the double's rounding interval. `shortest`
searches the grids from coarse to fine and takes the point nearest to the double.
-/

namespace TreeTraversal.Number

/-- The number `digits * 10^exponent`. -/
structure Decimal where
  digits : Nat
  exponent : Int
  deriving DecidableEq, Repr

/-- The reals that round to `significand * 2^exponent`, counted in quarters of its unit.
The ends belong to the interval exactly if the significand is even. -/
structure Interval where
  /-- The lower end, in quarters. -/
  low : Nat
  /-- The number itself, in quarters. -/
  middle : Nat
  /-- The upper end, in quarters. -/
  high : Nat
  /-- The binary exponent of a quarter. -/
  exponent : Int
  /-- Whether the ends round to the number too. -/
  closed : Bool
  deriving DecidableEq, Repr

namespace Interval

/-- The interval of a positive double. Below a power of two the neighbour is half as far away. -/
def ofParts (significand : Nat) (exponent : Int) : Interval where
  low :=
    if significand = Binary64.hiddenBit ∧ exponent ≠ Binary64.leastExponent then
      4 * significand - 1
    else
      4 * significand - 2
  middle := 4 * significand
  high := 4 * significand + 2
  exponent := exponent - 2
  closed := significand % 2 == 0

/-- The two whole factors that put a point `d * 10^k` and a quarter on one scale. -/
def scales (i : Interval) (k : Int) : Nat × Nat :=
  (Nat.pow 10 k.toNat * Nat.pow 2 (-i.exponent).toNat,
    Nat.pow 10 (-k).toNat * Nat.pow 2 i.exponent.toNat)

/-- Whether the point `d * 10^k` lies in the interval. -/
def holds (i : Interval) (k : Int) (d : Nat) : Bool :=
  let (point, quarter) := i.scales k
  if i.closed then
    i.low * quarter ≤ d * point && d * point ≤ i.high * quarter
  else
    i.low * quarter < d * point && d * point < i.high * quarter

/-- The point of the grid `10^k` in the interval that is nearest to the middle, if there is one.
Only the two neighbours of the middle can be; an exact tie goes to the even one. -/
def nearest? (i : Interval) (k : Int) : Option Nat :=
  let (point, quarter) := i.scales k
  let below := i.middle * quarter / point
  let gapBelow := i.middle * quarter - below * point
  let gapAbove := (below + 1) * point - i.middle * quarter
  match i.holds k below, i.holds k (below + 1) with
  | false, false => none
  | true, false => some below
  | false, true => some (below + 1)
  | true, true =>
    if gapBelow < gapAbove || gapBelow == gapAbove && below % 2 == 0 then
      some below
    else
      some (below + 1)

/-- Tries `steps` grids, each ten times finer than the one before, starting with `10^k`. -/
def search (i : Interval) : (steps : Nat) → (k : Int) → Option Decimal
  | 0, _ => none
  | steps + 1, k =>
    match i.nearest? k with
    | some d => some ⟨d, k⟩
    | none => i.search steps (k - 1)

end Interval

/-- The coarsest grid worth trying: no finite double reaches `10^309`. -/
def coarsestGrid : Int := 309

/-- The number of grids down to `10^(-324)`, which is finer than any rounding interval. -/
def gridCount : Nat := 634

/-- The decimal with the fewest digits that rounds to `significand * 2^exponent`, and of those the
nearest to it. No digit of it is a trailing zero, because the grid ten times coarser has no point in
the interval. -/
def shortest (significand : Nat) (exponent : Int) : Decimal :=
  if significand = 0 then
    ⟨0, 0⟩
  else
    match (Interval.ofParts significand exponent).search gridCount coarsestGrid with
    | some d => d
    | none => ⟨significand, exponent⟩

end TreeTraversal.Number
