import ReminderFlow.Log.Record
import ReminderFlow.Log.Template

namespace ReminderFlow.Log

structure Logger where
  name : String
  threshold : Nat

structure Entry where
  level : Level
  template : String
  arguments : List Datum := []
  extra : List (String × Datum) := []
  exception : Option String := none

/-- A name that an extra may not take. -/
structure ReservedName where
  name : String

namespace Logger

/-- The record that an entry makes in a context, if it reaches the threshold and its arguments fit
the template. -/
def record? (l : Logger) (c : Context) (e : Entry) : Except ReservedName (Option Record) :=
  if e.level.number < l.threshold then .ok none
  else
    match e.extra.find? fun m => Record.reserved.contains m.1 with
    | some m => .error ⟨m.1⟩
    | none =>
      .ok ((message? e.template e.arguments).map fun text =>
        Record.within ⟨e.level, l.name, text, e.extra, e.exception⟩ c)

end Logger

end ReminderFlow.Log
