import ReminderFlow.Datum
import ReminderFlow.Json.Equality
import ReminderFlow.Number.Rounding

namespace ReminderFlow

inductive DurationFault where
  | invalid
  | tooLarge
  deriving DecidableEq

/-- Whether a whole number rounds to a finite double. -/
def fitsDouble (n : Int) : Bool := (Double.ofInt n).isFinite

namespace Value

/-- The duration that a value gives. -/
def duration? : Value → Except DurationFault Number
  | int n =>
    if !fitsDouble n then .error .tooLarge
    else if n < 0 then .error .invalid
    else .ok (.whole n)
  | float x =>
    if x.isFinite && 0 ≤ x.scaled then .ok (.double x) else .error .invalid
  | _ => .error .invalid

/-- Whether a value is a finite number, as operands of numeric comparisons have to be. -/
def finiteNumber? : Value → Except DurationFault Bool
  | int n => if fitsDouble n then .ok true else .error .tooLarge
  | float x => .ok x.isFinite
  | _ => .ok false

end Value

namespace Number

/-- A duration in whole nanoseconds, a part of one counting as a whole one. -/
def nanoseconds : Number → Nat
  | whole n => n.toNat * tenTo 9
  | double x =>
    (x.scaled.toNat * tenTo 9 + twoTo Double.unitExponent - 1) / twoTo Double.unitExponent

end Number

inductive LimitFault where
  /-- What is no number has no order with zero. -/
  | notNumber
  | notPositive
  | nan
  | tooLong
  deriving DecidableEq

def LimitFault.fault : LimitFault → Fault
  | notNumber => .ofText "TypeError" "A time limit is a number of seconds"
  | notPositive => .ofText "ValueError" "timeout_seconds must be positive"
  | nan => .ofText "ValueError" "A time limit that is no number"
  | tooLong => .ofText "OverflowError" "A time limit beyond the calendar"

/-- A time limit; true is one second. -/
def Datum.limit? : Datum → Except LimitFault Number
  | .bool b => if b then .ok (.whole 1) else .error .notPositive
  | .int n => if 0 < n then .ok (.whole n) else .error .notPositive
  | .float x => if (Number.double x).lt (.whole 0) || x.isZero then .error .notPositive
    else .ok (.double x)
  | _ => .error .notNumber

namespace Number

/-- A time limit in microseconds. The whole seconds are exact; their fraction is multiplied as a
double and then rounded to a whole number, a half to the even one. -/
def micros? : Number → Except LimitFault Nat
  | whole n => .ok (n.toNat * tenTo 6)
  | double .nan => .error .nan
  | double (.infinite _) => .error .tooLong
  | double (.finite _ rank) =>
    let one := twoTo Double.unitExponent
    let units := Double.unitsOf rank.val
    let fraction := (Double.ofRatio false (units % one * tenTo 6) one).scaled.toNat
    .ok (units / one * tenTo 6 + roundHalfEven fraction one)

end Number

end ReminderFlow
