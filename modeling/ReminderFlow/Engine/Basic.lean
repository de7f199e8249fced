import ReminderFlow.Run.Chain
import ReminderFlow.Store

namespace ReminderFlow

/-- Somebody who is told of an outcome. -/
structure Callback where
  name : String
  /-- What it raises when it is told, as a log reports it. -/
  raises : Option String
  deriving DecidableEq

inductive Phase where
  | scheduled
  | running (chain : Chain)
  | finishing (at_ : Instant) (outcome : Outcome)
  | done (at_ : Instant) (outcome : Outcome)

namespace Phase

def end? : Phase → Option (Instant × Outcome)
  | finishing at_ outcome => some (at_, outcome)
  | done at_ outcome => some (at_, outcome)
  | _ => none

def isDone : Phase → Bool
  | done .. => true
  | _ => false

end Phase

structure Execution where
  machine : Machine
  input : Document
  started : Instant
  deadline : Instant
  /-- The state that each active chain is in. -/
  states : List (String × String)
  phase : Phase
  callbacks : List Callback

namespace Execution

def outcome? (x : Execution) : Option Outcome := x.phase.end?.map (·.2)

def status (x : Execution) : Status := (x.outcome?.map Outcome.status).getD .running

/-- The record of an execution that runs. -/
def record (id : String) (x : Execution) (now : Instant) : Record :=
  .running id x.started x.deadline now x.input x.states

/-- The record of how the execution stands, if there can be one. -/
def record? (id : String) (x : Execution) (now : Instant) : Option Record :=
  match x.phase.end? with
  | none => some (x.record id now)
  | some (at_, outcome) => Record.last? id x.started x.deadline now x.input x.states at_ outcome

end Execution

/-- A store that records are written to, and which writes fail for reasons of their own. -/
structure Archive where
  store : Store
  refuses : Record → Bool

structure Engine where
  registry : Registry
  /-- How many executions are remembered after they are done. -/
  retention : Nat
  archive : Option Archive
  /-- Every execution that has been started. -/
  executions : List (String × Execution)
  live : List String
  /-- Executions that are done, the oldest first. -/
  finished : List String
  /-- Records on their way to the store. -/
  writing : List Record
  closed : Bool
  /-- Whether records are no longer taken. -/
  shut : Bool

namespace Engine

inductive Event where
  | started (id : String) (deadline : Instant)
  | chain (id : String) (event : Chain.Event)
  /-- What an executor did when it was called. -/
  | performed (executor : String) (reply : Reply)
  /-- A record is handed over for writing. -/
  | recorded (record : Record)
  | written (record : Record) (fault : Option StoreError)
  /-- A record on its way is given up. -/
  | withdrawn (record : Record)
  /-- A record is not taken any more. -/
  | dropped (id : String)
  | settled (id : String) (outcome : Outcome) (crash : Option Fault)
  | finished (id : String) (outcome : Outcome)
  | notified (callback : Callback) (id : String) (outcome : Outcome)
  /-- What a callback raised, which nobody but the log is told. -/
  | complained (id report : String)

inductive Move where
  /-- A scheduled execution is taken up. -/
  | begin (id : String)
  | chain (id : String) (address : List Nat) (move : Chain.Move)
  /-- A main chain that has ended gives the outcome. -/
  | settle (id : String)
  | expire (id : String)
  /-- An execution is given up as the engine closes. -/
  | cancel (id : String)
  /-- The last record of an execution, still on its way, is given up as the engine closes. -/
  | withdraw (id : String)
  /-- The next record is written. -/
  | write
  /-- An execution whose last record is no longer on its way is done. -/
  | release (id : String)

inductive StartError where
  | closed
  | notMachine
  | limit (fault : LimitFault)
  | input (e : Incompatible)

def StartError.fault : StartError → Fault
  | closed => .ofText "RuntimeError" "Execution engine is closed"
  | notMachine => .ofText "TypeError" "definition must be a StateMachineDefinition"
  | limit e => e.fault
  | input e => e.fault

def unknownMessage (id : String) : String := s!"Unknown execution {Text.quote id}"

/-- How many executions are remembered if nothing else is said. -/
def defaultRetention : Nat := 1000

def make (registry : Registry) (archive : Option Archive) (retention : Nat) : Engine where
  registry := registry
  retention := retention
  archive := archive
  executions := []
  live := []
  finished := []
  writing := []
  closed := false
  shut := false

def execution? (e : Engine) (id : String) : Option Execution := e.executions.lookup id

def put (e : Engine) (id : String) (x : Execution) : Engine :=
  { e with executions := Members.insert id x e.executions }

/-- Whether an id is that of an execution that is live or still remembered. -/
def knows (e : Engine) (id : String) : Bool := e.live.contains id || e.finished.contains id

/-- Hand a record over for writing, if there is one and there is a store. -/
def persist (e : Engine) : Option Record → Engine × List Event
  | none => (e, [])
  | some r =>
    if e.archive.isNone then (e, [])
    else if e.shut then (e, [.dropped r.executionId])
    else ({ e with writing := e.writing ++ [r] }, [.recorded r])

/-- What an execution is started with: its machine, its input and its deadline. -/
def prepare (now : Instant) (machine : Option Machine) (input limit : Datum) :
    Except StartError (Machine × Document × Instant) := do
  match machine with
  | none => throw .notMachine
  | some m =>
    let seconds ← limit.limit?.mapError StartError.limit
    let doc ← (Document.ofDatum input).mapError StartError.input
    let micros ← seconds.micros?.mapError StartError.limit
    match now.after? micros with
    | none => throw (.limit .tooLong)
    | some deadline => pure (m, doc, deadline)

/-- Register an execution and make its first record. -/
def register (e : Engine) (now : Instant) (id : String) (m : Machine) (doc : Document)
    (deadline : Instant) : Engine × List Event :=
  let x : Execution := ⟨m, doc, now, deadline, [], .scheduled, []⟩
  let (e, events) := { e.put id x with live := e.live ++ [id] }.persist (some (x.record id now))
  (e, events ++ [.started id deadline])

/-- Start an execution. Whatever is wrong with the engine, the machine, the limit or the input
leaves the engine as it is. -/
def start (e : Engine) (now : Instant) (id : String) (machine : Option Machine)
    (input limit : Datum) : Except StartError (Engine × List Event) :=
  if e.closed then .error .closed
  else (prepare now machine input limit).map fun (m, doc, deadline) =>
    e.register now id m doc deadline

/-- What the events of a chain do to the pointers, and the records that they make: one for each
state that is entered. -/
def follow (e : Engine) (now : Instant) (id : String) (x : Execution) :
    List Chain.Event → Engine × Execution × List Event
  | [] => (e, x, [])
  | event :: rest =>
    let x := { x with states := event.track x.states }
    let (e, records) := match event with
      | .entered .. => e.persist (some (x.record id now))
      | _ => (e, [])
    let (e, x, more) := e.follow now id x rest
    (e, x, records ++ .chain id event :: more)

/-- The outcome stands: the pointers are gone and the last record is on its way. -/
def settle (e : Engine) (now : Instant) (id : String) (x : Execution) (outcome : Outcome)
    (left : List Chain.Event) (crash : Option Fault) : Engine × List Event :=
  let x := { x with states := [], phase := .finishing now outcome }
  let (e, events) := (e.put id x).persist (x.record? id now)
  (e, left.map (.chain id) ++ .settled id outcome crash :: events)

/-- An exception that no handler foresees. -/
def crash? : Except Failure Document → Option Fault
  | .error (.crash c) =>
    match c.fault.family with
    | .timeout => none
    | .execution .. => none
    | _ => some c.fault
  | _ => none

/-- The executions that are remembered when one more is done. -/
def remember (retention : Nat) (finished : List String) (id : String) : List String :=
  let all := finished ++ [id]
  all.drop (all.length - retention)

/-- A callback is told, and what it raises goes no further. -/
def notify (id : String) (outcome : Outcome) (c : Callback) : List Event :=
  .notified c id outcome :: c.raises.toList.map (.complained id)

/-- An execution is done: it leaves the live ones and its callbacks are called. -/
def release (e : Engine) (id : String) (x : Execution) (at_ : Instant) (outcome : Outcome) :
    Engine × List Event :=
  let done := { x with phase := .done at_ outcome, callbacks := [] }
  ({ e.put id done with
      live := e.live.filter (· ≠ id), finished := remember e.retention e.finished id },
    .finished id outcome :: x.callbacks.flatMap (notify id outcome))

/-- Write one record; a write that fails changes nothing else. -/
def write (a : Archive) (r : Record) : Archive × Option StoreError :=
  if a.refuses r then (a, some .refused)
  else
    let (store, fault) := a.store.put r
    ({ a with store := store }, fault)

/-- A record of an execution that has an outcome. -/
def isLastRecord (id : String) (r : Record) : Bool := r.executionId = id && r.completedAt.isSome

/-- Whether the last record of an execution is still on its way. -/
def isWriting (e : Engine) (id : String) : Bool := e.writing.any (isLastRecord id)

/-- Give up the last record of an execution, which is still on its way. -/
def withdraw (e : Engine) (id : String) : Engine × List Event :=
  ({ e with writing := e.writing.filter fun r => !isLastRecord id r },
    (e.writing.filter (isLastRecord id)).map .withdrawn)

/-- One move of the engine, if it may be made, and what is to be seen of it. -/
def step (e : Engine) (now : Instant) : Move → Option (Engine × List Event)
  | .begin id => do
    let x ← e.execution? id
    match x.phase with
    | .scheduled =>
      some (e.put id { x with phase := .running (.ready x.machine x.machine.start x.input) }, [])
    | _ => none
  | .chain id address move => do
    let x ← e.execution? id
    match x.phase with
    | .running c =>
      let (next, events) ← c.stepAt e.registry.contains move address ""
      let (e, x, seen) := e.follow now id { x with phase := .running next } events
      some (e.put id x, seen)
    | _ => none
  | .settle id => do
    let x ← e.execution? id
    match x.phase with
    | .running (.ended r) =>
      (Outcome.ofResult? x.deadline r).map fun outcome => e.settle now id x outcome [] (crash? r)
    | _ => none
  | .expire id => do
    let x ← e.execution? id
    match x.phase with
    | .running c =>
      if c.result?.isNone && c.isSuspended then
        some (e.settle now id x (.timedOut x.deadline) (c.abandon "") none)
      else none
    | _ => none
  | .cancel id => do
    let x ← e.execution? id
    match x.phase with
    | .running c =>
      if e.closed && c.result?.isNone && c.isSuspended then
        some (e.settle now id x .cancelled (c.abandon "") none)
      else none
    | _ => none
  | .withdraw id => do
    let x ← e.execution? id
    match x.phase with
    | .finishing .. => if e.closed && e.isWriting id then some (e.withdraw id) else none
    | _ => none
  | .write =>
    match e.writing, e.archive with
    | r :: rest, some a =>
      let (a, fault) := write a r
      some ({ e with writing := rest, archive := some a }, [.written r fault])
    | _, _ => none
  | .release id => do
    let x ← e.execution? id
    match x.phase with
    | .finishing at_ outcome =>
      if e.isWriting id then none else some (e.release id x at_ outcome)
    | _ => none

/-- Have a callback called once an execution has an outcome: at once if it has one already, and then
what it raises goes to the caller. -/
def addCallback (e : Engine) (id : String) (c : Callback) :
    Option (Engine × List Event × Option String) := do
  let x ← e.execution? id
  match x.outcome? with
  | some outcome => some (e, [.notified c id outcome], c.raises)
  | none => some (e.put id { x with callbacks := x.callbacks ++ [c] }, [], none)

/-- From now on no execution can be started, and those that there are may be cancelled. -/
def close (e : Engine) : Engine := { e with closed := true }

/-- From now on no record is taken. -/
def stop (e : Engine) : Engine := { e with shut := true }

end Engine

end ReminderFlow
