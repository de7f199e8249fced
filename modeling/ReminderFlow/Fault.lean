import ReminderFlow.Text.Digit
import ReminderFlow.Text.Quoted

namespace ReminderFlow

/-- What the handlers of exceptions tell apart. -/
inductive Family where
  | type
  | timeout
  /-- The failure of an execution, with its error and its cause. -/
  | execution (error cause : String)
  | other

def Family.ofKind (kind : String) : Family :=
  if kind = "TypeError" then type else if kind = "TimeoutError" then timeout else other

/-- An exception. Its text is made when it is asked for, and making it may raise another one. -/
inductive Fault where
  | mk (kind : String) (family : Family) (text : Except Fault String)

namespace Fault

def kind : Fault → String
  | mk kind _ _ => kind

def family : Fault → Family
  | mk _ family _ => family

def text : Fault → Except Fault String
  | mk _ _ text => text

def ofText (kind text : String) : Fault := ⟨kind, Family.ofKind kind, .ok text⟩

instance : Inhabited Fault := ⟨ofText "" ""⟩

/-- A fault that is raised with a message or without; of a missing key, the message is the key. -/
def raised (kind : String) (message : Option String) : Fault :=
  let text := message.getD ""
  ofText kind (if kind = "KeyError" && message.isSome then Text.quote text else text)

/-- A fault without a text is told by its kind. -/
def cause (f : Fault) : Except Fault String :=
  f.text.map fun text => if text = "" then f.kind else text

/-- A fault as a log names it. -/
def report (f : Fault) : String :=
  match f.text with
  | .ok text => if text = "" then f.kind else s!"{f.kind}: {text}"
  | .error _ => s!"{f.kind}: <exception str() failed>"

/-- Raised where a whole number of too many digits is to be written. -/
def tooManyDigits : Fault := ofText "ValueError" Text.overLimitWritten

end Fault

end ReminderFlow
