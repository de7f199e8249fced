import ReminderFlow.Json.Value

namespace ReminderFlow.Value

mutual

/-- The value with null for every double that is not finite. -/
def finiteOrNull : Value → Value
  | float x => if x.isFinite then float x else null
  | arr items => arr (finiteItems items)
  | obj members => obj (finiteMembers members)
  | v => v

def finiteItems : List Value → List Value
  | [] => []
  | v :: rest => finiteOrNull v :: finiteItems rest

def finiteMembers : List (String × Value) → List (String × Value)
  | [] => []
  | (k, v) :: rest => (k, finiteOrNull v) :: finiteMembers rest

end

end ReminderFlow.Value
