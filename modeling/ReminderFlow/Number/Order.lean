import ReminderFlow.Number.Double

namespace ReminderFlow

inductive Number where
  | whole (n : Int)
  | double (x : Double)
  deriving DecidableEq

namespace Number

/-- A place on the scale, from below all finite numbers to above them. -/
inductive Place where
  | bottom
  | at_ (units : Int)
  | top
  deriving DecidableEq

namespace Place

def lt : Place → Place → Bool
  | bottom, bottom => false
  | bottom, _ => true
  | at_ a, at_ b => a < b
  | at_ _, top => true
  | _, _ => false

end Place

def place? : Number → Option Place
  | whole n => some (.at_ (n * twoTo Double.unitExponent))
  | double (.finite negative rank) => some (.at_ (Double.finite negative rank).scaled)
  | double (.infinite negative) => some (if negative then .bottom else .top)
  | double .nan => none

def lt (a b : Number) : Bool :=
  match a.place?, b.place? with
  | some p, some q => p.lt q
  | _, _ => false

/-- Equal in value, whatever the two are written as. -/
def same (a b : Number) : Bool :=
  match a.place?, b.place? with
  | some p, some q => p = q
  | _, _ => false

end Number

end ReminderFlow
