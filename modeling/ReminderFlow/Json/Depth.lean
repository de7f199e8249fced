import ReminderFlow.Json.Value

namespace ReminderFlow.Value

mutual

/-- How many containers that are not empty lie in one another. -/
def depth : Value → Nat
  | arr items => depthItems items
  | obj members => depthMembers members
  | _ => 0

/-- One level more than the deepest item, or nothing where there is no item. -/
def depthItems : List Value → Nat
  | [] => 0
  | v :: rest => max (depth v + 1) (depthItems rest)

def depthMembers : List (String × Value) → Nat
  | [] => 0
  | (_, v) :: rest => max (depth v + 1) (depthMembers rest)

end

end ReminderFlow.Value

/-- How deep a value may be nested where records and forms are read and written. -/
structure ReminderFlow.Codec where
  /-- The deepest value that is read. -/
  readDepth : Nat
  /-- The deepest value that is written as a field of a record or a report. -/
  writeDepth : Nat

/-- The limits of the library that is used for records and forms. -/
def ReminderFlow.Codec.usual : Codec := ⟨200, 253⟩
