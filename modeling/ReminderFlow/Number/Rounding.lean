import ReminderFlow.Number.Double

namespace ReminderFlow

/-- The whole number nearest to `num / den`; a half goes to the even neighbour. -/
def roundHalfEven (num den : Nat) : Nat :=
  let q := num / den
  let twice := 2 * (num % den)
  if twice < den then q else if den < twice then q + 1 else q + q % 2

namespace Double

/-- The rank of the magnitude nearest to `num / den`, counted on past the finite ones. -/
def nearestRank (num den : Nat) : Nat :=
  let units := num * twoTo unitExponent
  let shift := (units / den).log2 - 52
  shift * twoTo 52 + roundHalfEven units (den * twoTo shift)

def ofRank (negative : Bool) (rank : Nat) : Double :=
  if h : rank < ranks then finite negative ⟨rank, h⟩ else infinite negative

def ofRatio (negative : Bool) (num den : Nat) : Double :=
  ofRank negative (nearestRank num den)

/-- The double nearest to `mantissa * 10 ^ exponent`. Powers so large or small that the result is
known without them are not computed. -/
def ofDecimal (negative : Bool) (mantissa : Nat) (exponent : Int) : Double :=
  if mantissa = 0 ∨ exponent + mantissa.log2 < -400 then ofRank negative 0
  else if 400 < exponent then infinite negative
  else if 0 ≤ exponent then ofRatio negative (mantissa * tenTo exponent.toNat) 1
  else ofRatio negative mantissa (tenTo (-exponent).toNat)

def ofInt (n : Int) : Double := ofRatio (n < 0) n.natAbs 1

end Double

end ReminderFlow
