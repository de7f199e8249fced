import ReminderFlow.Number.Power

namespace ReminderFlow

/-- How many finite magnitudes there are: 2047 exponents with 52 bits of fraction each. -/
abbrev Double.ranks : Nat := 2047 * twoTo 52

inductive Double where
  | finite (negative : Bool) (rank : Fin Double.ranks)
  | infinite (negative : Bool)
  | nan
  deriving DecidableEq

namespace Double

/-- The size of the magnitude with this rank. Up to twice 2^52 the units are counted one by one;
each further 2^52 ranks are twice as far apart. -/
def unitsOf (rank : Nat) : Nat :=
  if rank < twoTo 53 then rank
  else (twoTo 52 + rank % twoTo 52) * twoTo (rank / twoTo 52 - 1)

/-- The exponent of the unit that sizes are counted in. -/
abbrev unitExponent : Nat := 1074

/-- A finite number as a signed whole number of units. -/
def scaled : Double → Int
  | finite negative rank => if negative then -(unitsOf rank.val : Int) else unitsOf rank.val
  | _ => 0

def isFinite : Double → Bool
  | finite .. => true
  | _ => false

def isNegative : Double → Bool
  | finite negative _ => negative
  | infinite negative => negative
  | nan => false

def isZero : Double → Bool
  | finite _ rank => rank.val = 0
  | _ => false

end Double

end ReminderFlow
