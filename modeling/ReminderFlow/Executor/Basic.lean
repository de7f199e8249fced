import ReminderFlow.Log.Record

namespace ReminderFlow

/-- A message to a web service. -/
structure Post where
  url : String
  body : Value
  timeout : Value
  headers : List (String × String)

structure Reply where
  result : Except Fault Datum
  posts : List Post := []
  log : List Log.Record := []
  /-- What has to be released before the reply is given. -/
  awaits : Option String := none

structure Executor where
  kind : String
  /-- The reply to an input, after so many calls. -/
  call : Nat → Value → Reply

namespace Executor

def ofFunction (kind : String) (f : Value → Except Fault Datum) : Executor :=
  ⟨kind, fun _ v => { result := f v }⟩

/-- Whether the replies hang on nothing but the input, and are given at once. -/
def IsFunction (e : Executor) : Prop :=
  ∃ f : Value → Except Fault Datum,
    ∀ n v, (e.call n v).result = f v ∧ (e.call n v).awaits = none

end Executor

end ReminderFlow
