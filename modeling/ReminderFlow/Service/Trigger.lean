import ReminderFlow.Engine.Scheduler
import ReminderFlow.Number.Layout

namespace ReminderFlow

structure Trigger where
  machine : Machine
  executionLimit : Datum
  /-- How long a request waits. -/
  requestLimit : Number
  room : Room

namespace Trigger

/-- The answer to a request: an HTTP status and a JSON body. -/
structure Response where
  status : Nat
  body : Value

def report (status : Status) (id : String) (error cause : Value) : Value :=
  .obj [("status", .str status.name), ("executionId", .str id), ("error", error), ("cause", cause)]

/-- The answer that an outcome leads to; a success without a document leads to none. -/
def ofOutcome? (id : String) (o : Outcome) : Option Response :=
  match o.status with
  | .succeeded => o.document.map fun doc => ⟨200, doc.value⟩
  | .timedOut => some ⟨504, report .timedOut id o.error o.cause⟩
  | status => some ⟨500, report status id o.error o.cause⟩

def invalidRequest : Response where
  status := 400
  body := .obj [("error", .str "InvalidRequest"),
    ("cause", .str "Request body must be a JSON object")]

inductive Fault where
  | start (e : Engine.StartError)
  | bodyTooDeep
  /-- No timer runs that long, or the limit is no double. -/
  | waitTooLong
  | noDocument

/-- The longest time that can be waited, in microseconds. -/
def longestWait : Nat := 9223372036854775

/-- How long to wait, in nanoseconds. Limits below zero, and what is no number, are over at once. -/
def waitTime? (limit : Number) : Except Fault Nat :=
  if limit = .double (.infinite false) then .error .waitTooLong
  else if longestWait < (limit.nanoseconds + 999) / 1000 then .error .waitTooLong
  else .ok limit.nanoseconds

def limitText? : Number → Except Fault String
  | .whole n =>
    if fitsDouble n then .ok (NumberLayout.brief.write (Double.ofInt n)) else .error .waitTooLong
  | .double x => .ok (NumberLayout.brief.write x)

/-- The answer when the time for a request is up. -/
def stillRunning (id limit : String) : Response where
  status := 504
  body := report .running id (.str "RequestTimeout")
    (.str s!"Execution still running after {limit}s")

/-- The answer of an execution that has been waited for. -/
def answer (s : Scheduler) (id : String) (limit : Number) : Except Fault Response :=
  if Scheduler.isDone id s then
    match ((s.engine.execution? id).bind Execution.outcome?).bind (ofOutcome? id) with
    | some r => .ok r
    | none => .error .noDocument
  else (limitText? limit).map (stillRunning id)

def await (t : Trigger) (s : Scheduler) (id : String) : Scheduler × Except Fault Response :=
  match waitTime? t.requestLimit with
  | .error f => (s, .error f)
  | .ok time =>
    let s := s.waitFor (Scheduler.isDone id) time
    (s, answer s id t.requestLimit)

/-- Answer a request, by an execution of this id. What is no object starts none. -/
def submit (t : Trigger) (s : Scheduler) (id : String) (body : Datum) :
    Scheduler × Except Fault Response :=
  match body with
  | .dict _ =>
    if t.room.walks body then
      match s.start id (some t.machine) body t.executionLimit with
      | .error e => (s, .error (.start e))
      | .ok s => t.await s id
    else (s, .error .bodyTooDeep)
  | _ => (s, .ok invalidRequest)

end Trigger

end ReminderFlow
