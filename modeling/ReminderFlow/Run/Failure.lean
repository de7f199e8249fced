import ReminderFlow.Condition
import ReminderFlow.Executor.Registry

namespace ReminderFlow

/-- An exception that no machine which passed its checks should run into, but for whole numbers
beyond the doubles and for what executors hand over. -/
inductive Crash where
  /-- A whole number that is no double, where a duration is needed. -/
  | numberTooLarge
  | missingState (name : Value)
  | path (e : PathError)
  | unordered
  /-- Raised while a message was made, or by a part of what an executor gave. -/
  | outside (fault : Fault)

def Crash.fault : Crash → Fault
  | numberTooLarge => .ofText "OverflowError" "int too large to convert to float"
  | missingState name => ⟨"KeyError", .other, name.describe⟩
  | path e => e.fault
  | unordered => .ofText "TypeError" "A number can only be ordered with a number"
  | outside fault => fault

/-- Why a chain of states fails. Values are kept as the texts that messages show them by. -/
inductive Failure where
  /-- A Fail state gives its error and its cause as they are written. -/
  | raised (error cause : Value)
  | notFound (path : String)
  | duration (shown : String)
  | unknownExecutor (shown : String)
  | task (executor cause : String)
  | crash (c : Crash)

namespace Failure

/-- The failure whose message shows a value, unless the value cannot be shown. -/
def showing (make : String → Failure) (v : Value) : Failure :=
  match v.describe with
  | .ok shown => make shown
  | .error fault => crash (.outside fault)

/-- The failure of a look-up in a document. -/
def ofDocumentError : DocumentError → Failure
  | .notFound path => notFound path
  | .path e => crash (.path e)
  | e => crash (.outside e.fault)

def ofConditionError : ConditionError → Failure
  | .notFound path => notFound path
  | .path e => crash (.path e)
  | .unordered => crash .unordered

/-- The error and the cause of a failure that is foreseen. -/
def report? : Failure → Option (Value × Value)
  | raised error cause => some (error, cause)
  | notFound path =>
    some (.str "States.PathNotFound", .str (DocumentError.notFoundMessage path))
  | duration shown => some (.str "States.InvalidDuration",
    .str s!"Wait duration must be a non-negative number, got {shown}")
  | unknownExecutor shown => some (.str "States.UnknownExecutor",
    .str s!"No task executor registered under {shown}")
  | task _ cause => some (.str "States.TaskFailed", .str cause)
  | crash _ => none

end Failure

end ReminderFlow
