import LockFreeRings.Decimal
import LockFreeRings.Decimal.Binary64
import LockFreeRings.Powers
set_option autoImplicit false

/-!
# Shortest decimals

The decimal that stands for a floating-point number is, of those that lie
between the midpoints to the neighbouring numbers, one with the fewest digits,
and of those the nearest.  The search goes over grids of multiples of a power
of ten, from the coarsest to the finest: on each grid only the two points around
the number can be the nearest, and the first grid with a point in the interval
gives the answer.
-/

namespace LockFreeRings

open scoped Powers

/-- The number `digits * 10 ^ exponent`. -/
structure ScaledDecimal where
  digits : Nat
  exponent : Int
  deriving DecidableEq, Repr

namespace Shortest

/-- A positive number and the ends of the interval of numbers that round to it,
all three over one denominator. -/
structure Interval where
  value : Nat
  low : Nat
  high : Nat
  denominator : Nat
  /-- whether the ends belong to the interval -/
  closed : Bool

/-- The interval of numbers that round to `x`: half way to each neighbour.  A
midpoint rounds to the neighbour with the even mantissa. -/
def intervalOf (x : Binary64) : Interval :=
  let up := 2 ^ (x.exponent - 2).toNat
  { value := 4 * x.mantissa * up
    low := (4 * x.mantissa - (if x.isLowEdge then 1 else 2)) * up
    high := (4 * x.mantissa + 2) * up
    denominator := 2 ^ (2 - x.exponent).toNat
    closed := x.mantissa % 2 = 0 }

/-- The power of ten that the leading digit of a positive fraction stands for. -/
def leadingPower (numerator denominator : Nat) : Int :=
  let guess : Int := (Decimal.length numerator : Int) - Decimal.length denominator
  if denominator * 10 ^ guess.toNat ≤ numerator * 10 ^ (-guess).toNat then guess else guess - 1

/-- The point of the grid of multiples of `10 ^ power` that is nearest to the
value, of those inside the interval; of two equally near ones the even one. -/
def gridPoint? (i : Interval) (power : Int) : Option Nat :=
  let unit := i.denominator * 10 ^ power.toNat
  let scale := 10 ^ (-power).toNat
  let value := i.value * scale
  let below := value / unit
  let inside := fun d =>
    if i.closed then i.low * scale ≤ d * unit && d * unit ≤ i.high * scale
    else i.low * scale < d * unit && d * unit < i.high * scale
  match inside below, inside (below + 1) with
  | true, false => some below
  | false, true => some (below + 1)
  | false, false => none
  | true, true =>
    let twice := 2 * (value - below * unit)
    if twice < unit || (twice = unit && below % 2 = 0) then some below else some (below + 1)

/-- Zeros at the end moved into the exponent, at most `fuel` of them. -/
def trim : Nat → ScaledDecimal → ScaledDecimal
  | 0, d => d
  | fuel + 1, d =>
    if d.digits ≠ 0 ∧ d.digits % 10 = 0 then trim fuel ⟨d.digits / 10, d.exponent + 1⟩ else d

end Shortest

/-- The shortest decimal for the size of `x`.  Seventeen digits tell all numbers
apart, so no finer grid is needed. -/
def Binary64.shortest (x : Binary64) : ScaledDecimal :=
  if x.mantissa = 0 then ⟨0, 0⟩
  else
    let i := Shortest.intervalOf x
    let top := Shortest.leadingPower i.value i.denominator
    let powers := (List.range 17).map fun (k : Nat) => top - k
    let found := powers.findSome? fun power =>
      (Shortest.gridPoint? i power).map fun d => Shortest.trim 17 ⟨d, power⟩
    found.getD ⟨0, 0⟩

end LockFreeRings
