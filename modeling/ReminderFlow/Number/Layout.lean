import ReminderFlow.Number.Decimal

namespace ReminderFlow

/-- A way to write doubles. -/
structure NumberLayout where
  /-- Significant digits, or as few as are needed. -/
  significant : Option Nat
  /-- The leading exponent from which on a power of ten is written. -/
  scientificFrom : Int
  /-- Whether a whole number keeps a point and a zero. -/
  wholePoint : Bool
  nan : String
  infinity : String

namespace NumberLayout

/-- Documents: the fewest digits, with a point in them below ten to the power 16. -/
def document : NumberLayout := ⟨none, 16, true, "NaN", "Infinity"⟩

/-- Messages differ from documents in the words for what is no finite number. -/
def message : NumberLayout := ⟨none, 16, true, "nan", "inf"⟩

/-- Durations in prose have at most six digits and no zero after the point. -/
def brief : NumberLayout := ⟨some 6, 6, false, "nan", "inf"⟩

def zeros (count : Nat) : List Char := List.replicate count '0'

/-- Digits with the point behind the first `leading + 1` of them. -/
def positional (wholePoint : Bool) (digits : List Char) (leading : Int) : List Char :=
  if leading < 0 then ['0', '.'] ++ zeros (-leading - 1).toNat ++ digits
  else
    let whole := (digits ++ zeros (leading.toNat + 1 - digits.length)).take (leading.toNat + 1)
    let fraction := digits.drop (leading.toNat + 1)
    if fraction.isEmpty then whole ++ (if wholePoint then ['.', '0'] else [])
    else whole ++ '.' :: fraction

/-- The exponent has a sign and at least two digits. -/
def scientific (digits : List Char) (leading : Int) : List Char :=
  let mantissa := match digits with
    | [] => []
    | [d] => [d]
    | d :: rest => d :: '.' :: rest
  let power := leading.natAbs.repr.toList
  mantissa ++ 'e' :: (if leading < 0 then '-' else '+') :: zeros (2 - power.length) ++ power

def magnitude (layout : NumberLayout) (rank : Nat) : List Char :=
  let decimal := match layout.significant with
    | none => Double.shortest rank
    | some count => Double.significant rank count
  let digits := decimal.digits.repr.toList
  let leading := decimal.leading
  if leading < -4 ∨ layout.scientificFrom ≤ leading then scientific digits leading
  else positional layout.wholePoint digits leading

def write (layout : NumberLayout) : Double → String
  | .finite negative rank =>
    let digits := layout.magnitude rank.val
    String.ofList (if negative then '-' :: digits else digits)
  | .infinite negative => if negative then "-" ++ layout.infinity else layout.infinity
  | .nan => layout.nan

end NumberLayout

end ReminderFlow
