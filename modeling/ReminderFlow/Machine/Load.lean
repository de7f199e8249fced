import ReminderFlow.File
import ReminderFlow.Json.Reader
import ReminderFlow.Machine.Reminder

namespace ReminderFlow

inductive LoadError where
  /-- The file is not there, or its text is no JSON. -/
  | unreadable (path reason : String)
  | machine (e : MachineError)
  | notUtf8
  | integerTooLong (digits : Nat)
  | tooDeep
  /-- Not a fault of the file: a machine with half of a surrogate pair in it is none here. -/
  | halfPair

namespace LoadError

def unreadableMessage (path reason : String) : String :=
  s!"Cannot read state machine definition {path}: {reason}"

def fault : LoadError → Fault
  | unreadable path reason => .ofText "DefinitionInvalid" (unreadableMessage path reason)
  | machine e => e.fault
  | notUtf8 => .ofText "UnicodeDecodeError" "The state machine definition is not UTF-8"
  | integerTooLong digits => .ofText "ValueError" (Text.overLimit digits)
  | tooDeep => .tooDeep
  | halfPair => .ofText "UnicodeError" "surrogates not allowed"

/-- The code and the message of the report, if there is one. -/
def report? : LoadError → Option (String × String)
  | unreadable path reason => some ("States.DefinitionInvalid", unreadableMessage path reason)
  | machine e => e.report?
  | _ => none

end LoadError

namespace Machine

/-- The machine that a value describes, if the stack has room for it. -/
def ofValue (room : Room) (v : Value) : Except LoadError Machine :=
  if room.walks (.ofValue v) then (ofJson v).mapError .machine else .error .tooDeep

def ofText (room : Room) (path text : String) : Except LoadError Machine :=
  if room.reads text then
    match Json.read text with
    | .ok v => ofValue room v
    | .error (.integerTooLong digits) => .error (.integerTooLong digits)
    | .error .halfPair => .error .halfPair
    | .error (.malformed fault offset) => .error (.unreadable path (fault.message text offset))
  else .error .tooDeep

def ofEntry (room : Room) (path : String) (entry : Option Entry) : Except LoadError Machine :=
  match Entry.readText entry with
  | .ok text => ofText room path text
  | .error .notUtf8 => .error .notUtf8
  | .error fault => .error (.unreadable path (fault.message path))

/-- The machine under a path, or the built-in one. -/
def load (room : Room) (files : String → Option Entry) : Option String → Except LoadError Machine
  | none => .ok reminder
  | some path => ofEntry room path (files path)

end Machine

end ReminderFlow
