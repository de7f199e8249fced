import ReminderFlow.Instant
import ReminderFlow.Run.Failure

namespace ReminderFlow

inductive Status where
  | running
  | succeeded
  | failed
  | timedOut
  deriving DecidableEq, Inhabited

namespace Status

def name : Status → String
  | running => "RUNNING"
  | succeeded => "SUCCEEDED"
  | failed => "FAILED"
  | timedOut => "TIMED_OUT"

def all : List Status := [running, succeeded, failed, timedOut]

def ofName? (s : String) : Option Status := all.find? fun x => x.name = s

def isTerminal (s : Status) : Bool := s ≠ running

theorem ofName?_name (s : Status) : ofName? s.name = some s := by
  cases s <;> decide

end Status

/-- The report on an execution. Error and cause are texts or null, unless a Fail state gives them
otherwise. -/
structure Outcome where
  status : Status
  document : Option Document := none
  error : Value := .null
  cause : Value := .null
  deriving Inhabited

namespace Outcome

def succeeded (doc : Document) : Outcome := { status := .succeeded, document := some doc }

def failed (error cause : Value) : Outcome :=
  { status := .failed, error := error, cause := cause }

def timeoutCode : String := "States.Timeout"

def timedOut (deadline : Instant) : Outcome where
  status := .timedOut
  error := .str timeoutCode
  cause := .str s!"Execution exceeded its deadline of {deadline.text}"

def cancelled : Outcome :=
  failed (.str "States.Cancelled") (.str "Execution engine shut down")

def runtimeCode : String := "States.Runtime"

/-- The outcome of an execution that an exception ends. One that passes for the deadline is taken
for it; where the text of an unforeseen one cannot be had, there is none. -/
def ofFault? (deadline : Instant) (fault : Fault) : Option Outcome :=
  match fault.family with
  | .timeout => some (timedOut deadline)
  | .execution error cause => some (failed (.str error) (.str cause))
  | _ => fault.cause.toOption.map fun cause => failed (.str runtimeCode) (.str cause)

def ofResult? (deadline : Instant) : Except Failure Document → Option Outcome
  | .ok doc => some (succeeded doc)
  | .error (.crash c) => ofFault? deadline c.fault
  | .error f => f.report?.map fun (error, cause) => failed error cause

/-- What is asked of an execution that has not succeeded. -/
inductive ResultError where
  | stillRunning (id : String)
  | failed (error cause : Value)
  | timedOut (cause : Value)

namespace ResultError

/-- A code that counts as nothing is the empty text. -/
def orEmpty (v : Value) : Value := if v.isTruthy then v else .str ""

def code : ResultError → Value
  | stillRunning _ => .str "States.StillRunning"
  | failed error _ => orEmpty error
  | timedOut _ => .str timeoutCode

def cause : ResultError → Value
  | stillRunning id => .str s!"Execution {id} has not finished"
  | failed _ cause => orEmpty cause
  | timedOut cause => orEmpty cause

end ResultError

/-- The document of an execution that has succeeded. -/
def result (o : Outcome) : Except ResultError Document :=
  match o.status, o.document with
  | .timedOut, _ => .error (.timedOut o.cause)
  | .failed, _ => .error (.failed o.error o.cause)
  | _, some doc => .ok doc
  | _, none => .error (.failed .null .null)

end Outcome

end ReminderFlow
