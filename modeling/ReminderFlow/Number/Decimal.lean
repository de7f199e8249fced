import ReminderFlow.Number.Rounding

namespace ReminderFlow

/-- The number `digits * 10 ^ exponent`. -/
structure Decimal where
  digits : Nat
  exponent : Int
  deriving DecidableEq

namespace Decimal

/-- The same number with the zeros at the end of its digits moved into the exponent. -/
def stripZeros (digits : Nat) (exponent : Int) : Decimal :=
  if h : digits = 0 then ⟨0, 0⟩
  else if digits % 10 = 0 then stripZeros (digits / 10) (exponent + 1)
  else ⟨digits, exponent⟩
  termination_by digits
  decreasing_by exact Nat.div_lt_self (by omega) (by decide)

/-- The exponent of the leading digit. -/
def leading (d : Decimal) : Int :=
  d.exponent + d.digits.repr.length - 1

end Decimal

namespace Double

/-- The exponent of the leading decimal digit of a positive magnitude: even the smallest one has
its first digit within 324 places after the point. -/
def leadingExponent (rank : Nat) : Int :=
  ((unitsOf rank * tenTo 324 / twoTo unitExponent).repr.length : Int) - 325

/-- A grid of decimals, as a fraction of half a unit: its step is `step / den` halves. -/
structure Grid where
  step : Nat
  den : Nat

/-- The multiples of `10 ^ exponent`. -/
def gridOf (exponent : Int) : Grid :=
  if 0 ≤ exponent then ⟨tenTo exponent.toNat * twoTo (unitExponent + 1), 1⟩
  else ⟨twoTo (unitExponent + 1), tenTo (-exponent).toNat⟩

/-- Whether the `n`-th point of a grid is read back as the magnitude: it lies between the midpoints
to the neighbouring ranks, which themselves go to the even rank. -/
def readsBack (rank : Nat) (grid : Grid) (n : Nat) : Bool :=
  let low := (unitsOf (rank - 1) + unitsOf rank) * grid.den
  let high := (unitsOf rank + unitsOf (rank + 1)) * grid.den
  let point := n * grid.step
  if rank % 2 = 0 then low ≤ point && point ≤ high else low < point && point < high

/-- The points of a grid next to the magnitude, the nearer one first; of two that are equally near,
the even one. -/
def neighbours (rank : Nat) (grid : Grid) : List Nat :=
  let twice := 2 * unitsOf rank * grid.den
  let below := twice / grid.step
  let nearest := roundHalfEven twice grid.step
  [nearest, if nearest = below then below + 1 else below]

/-- The decimal with this many digits that is read back as the magnitude, if there is one. -/
def withDigits? (rank count : Nat) : Option Decimal :=
  let exponent := leadingExponent rank - count + 1
  let grid := gridOf exponent
  ((neighbours rank grid).find? (readsBack rank grid)).map fun n => Decimal.stripZeros n exponent

/-- The decimal with the fewest digits that is read back as the magnitude, and of those the nearest
one. Seventeen digits always are enough. -/
def shortest (rank : Nat) : Decimal :=
  if rank = 0 then ⟨0, 0⟩
  else ((List.range 17).findSome? fun i => withDigits? rank (i + 1)).getD ⟨0, 0⟩

/-- The magnitude rounded to this many significant digits. -/
def significant (rank count : Nat) : Decimal :=
  if rank = 0 then ⟨0, 0⟩
  else
    let exponent := leadingExponent rank - count + 1
    let grid := gridOf exponent
    Decimal.stripZeros (roundHalfEven (2 * unitsOf rank * grid.den) grid.step) exponent

end Double

end ReminderFlow
