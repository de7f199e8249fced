import ReminderFlow.Engine.Basic

namespace ReminderFlow

/-- How long things take, in nanoseconds. -/
structure Pace where
  /-- A turn of the loop. -/
  turn : Nat
  /-- A write to the store. -/
  write : Nat
  turn_pos : 0 < turn

/-- What is done in one turn. -/
inductive Job where
  | move (m : Engine.Move)
  /-- Give up all executions, as the engine closes. -/
  | cancelAll

/-- A move that is due at a time, in nanoseconds since the engine was made. -/
structure Timer where
  due : Nat
  move : Engine.Move

/-- The reply to a call, for the chain that made it. -/
structure Answer where
  id : String
  address : List Nat
  result : Except Fault Datum

structure Scheduler where
  engine : Engine
  pace : Pace
  /-- When the engine was made. -/
  epoch : Instant
  now : Nat
  ready : List Job
  timers : List Timer
  /-- When the write that is under way is over. -/
  writer : Option Nat
  workers : Nat
  /-- Calls that wait for a worker. -/
  queued : List (String × List Nat)
  /-- Calls that keep a worker until something is released. -/
  held : List (String × Answer)
  answers : List Answer
  released : List String
  /-- How often each executor has been called. -/
  counts : List (String × Nat)
  /-- What was to be seen, the latest first. -/
  history : List Engine.Event

namespace Scheduler

def make (engine : Engine) (pace : Pace) (epoch : Instant) (workers : Nat) : Scheduler where
  engine := engine
  pace := pace
  epoch := epoch
  now := 0
  ready := []
  timers := []
  writer := none
  workers := workers
  queued := []
  held := []
  answers := []
  released := []
  counts := []
  history := []

def instant (s : Scheduler) : Instant := ⟨s.epoch.micros + s.now / 1000⟩

def see (s : Scheduler) (events : List Engine.Event) : Scheduler :=
  { s with history := events.reverse ++ s.history }

/-- The timers with one more; those that are due at the same time keep their order. -/
def insertTimer (t : Timer) : List Timer → List Timer
  | [] => [t]
  | u :: rest => if t.due < u.due then t :: u :: rest else u :: insertTimer t rest

def later (s : Scheduler) (due : Nat) (move : Engine.Move) : Scheduler :=
  { s with timers := insertTimer ⟨due, move⟩ s.timers }

def soon (s : Scheduler) (move : Engine.Move) : Scheduler :=
  { s with ready := s.ready ++ [.move move] }

def next (s : Scheduler) (move : Engine.Move) : Scheduler :=
  { s with ready := .move move :: s.ready }

def move (s : Scheduler) (m : Engine.Move) : Option Scheduler :=
  (s.engine.step s.instant m).map fun (e, events) => ({ s with engine := e }).see events

/-- Note a call of an executor, and when its answer is given. -/
def perform (s : Scheduler) (id : String) (address : List Nat) (call : Call) : Scheduler :=
  let count := (s.counts.lookup call.executor).getD 0
  match s.engine.registry.get? call.executor with
  | none => s
  | some executor =>
    let reply := executor.call count call.input
    let s := ({ s with counts := Members.insert call.executor (count + 1) s.counts }).see
      [.performed call.executor reply]
    let answer : Answer := ⟨id, address, reply.result⟩
    match reply.awaits with
    | some gate =>
      if s.released.contains gate then { s with answers := s.answers ++ [answer] }
      else { s with held := s.held ++ [(gate, answer)] }
    | none => { s with answers := s.answers ++ [answer] }

def chainAt? (s : Scheduler) (id : String) (address : List Nat) : Option Chain := do
  let x ← s.engine.execution? id
  match x.phase with
  | .running c => c.at? address
  | _ => none

/-- Have free workers make the calls that wait for one, in their order. A call whose execution has
come to an end is dropped. -/
def employ : List (String × List Nat) → Scheduler → Scheduler
  | [], s => { s with queued := [] }
  | (id, address) :: rest, s =>
    if s.held.length < s.workers then
      match s.chainAt? id address, s.move (.chain id address .call) with
      | some (.working _ call _), some after => employ rest (after.perform id address call)
      | _, _ => employ rest s
    else { s with queued := (id, address) :: rest }

def submit (s : Scheduler) (id : String) (address : List Nat) : Scheduler :=
  employ (s.queued ++ [(id, address)]) s

/-- What comes up when a chain has become what it is now. -/
def arrange (s : Scheduler) (id : String) (address : List Nat) : Chain → Scheduler
  | .created .. => s
  | .ready .. => s.next (.chain id address .enter)
  | .waiting _ seconds =>
    if seconds.nanoseconds = 0 then s.soon (.chain id address .wake)
    else s.later (s.now + seconds.nanoseconds) (.chain id address .wake)
  | .working .. => s.submit id address
  | .forked _ branches =>
    if branches.isEmpty then s.soon (.chain id address .join)
    else (List.range branches.length).foldl
      (fun s i => s.soon (.chain id (address ++ [i]) .begin)) s
  | .ended _ =>
    match address with
    | [] => s.next (.settle id)
    | _ =>
      match s.chainAt? id address.dropLast with
      | some (.forked _ branches) =>
        if branches.all fun c => c.result?.isSome then s.soon (.chain id address.dropLast .join)
        else s
      | _ => s

def deadline (s : Scheduler) (x : Execution) : Nat :=
  (x.deadline.micros - s.epoch.micros) * 1000

/-- What comes up after a move. The deadline of an execution counts from the moment it is taken up,
and one that has passed by then strikes where the chain first has to wait. What has ended is done
once its last record is written. -/
def arise (s : Scheduler) : Engine.Move → Scheduler
  | .begin id =>
    match s.engine.execution? id with
    | some x =>
      let s := if s.deadline x ≤ s.now then s.soon (.expire id)
        else s.later (s.deadline x) (.expire id)
      s.next (.chain id [] .enter)
    | none => s
  | .chain id address _ =>
    match s.chainAt? id address with
    | some c => s.arrange id address c
    | none => s
  | .settle id => if s.engine.isWriting id then s else s.next (.release id)
  | .expire id => if s.engine.isWriting id then s else s.soon (.release id)
  | .cancel id => if s.engine.isWriting id then s else s.soon (.release id)
  | .withdraw id => s.soon (.release id)
  | .write => s
  | .release _ => s

def take (s : Scheduler) (m : Engine.Move) : Scheduler :=
  match s.move m with
  | some after => after.arise m
  | none => s

/-- Give up an execution, or its last record if it has come to its end. -/
def cancel (s : Scheduler) (id : String) : Scheduler :=
  match s.move (.cancel id) with
  | some after => after.arise (.cancel id)
  | none => s.take (.withdraw id)

def perform? (s : Scheduler) : Option Scheduler :=
  match s.ready with
  | .move m :: rest => some (({ s with ready := rest }).take m)
  | .cancelAll :: rest =>
    some (s.engine.live.foldl cancel { s with ready := rest })
  | [] =>
    match s.answers with
    | a :: rest => some (({ s with answers := rest }).take (.chain a.id a.address (.reply a.result)))
    | [] => none

/-- Timers that are due become ready, and the writer takes up what there is to write. -/
def rouse (s : Scheduler) : Scheduler :=
  let due := s.timers.takeWhile fun u => u.due ≤ s.now
  { s with
    ready := s.ready ++ due.map fun u => .move u.move
    timers := s.timers.drop due.length
    writer := if s.engine.writing.isEmpty then none else some (s.writer.getD (s.now + s.pace.write)) }

/-- The first record is written. If it is the last one of its execution, that is done soon. -/
def record (s : Scheduler) : Scheduler :=
  let s := { s with writer := none }
  match s.engine.writing, s.move .write with
  | r :: _, some after => if r.completedAt.isSome then after.soon (.release r.executionId) else after
  | _, _ => s

/-- When something is due that nothing else is waiting for. -/
def due? (s : Scheduler) : Option Nat :=
  match s.timers, s.writer with
  | t :: _, some w => some (min t.due w)
  | t :: _, none => some t.due
  | [], w => w

def isOver (limit : Option Nat) (time : Nat) : Bool :=
  match limit with
  | some l => l ≤ time
  | none => false

/-- The next thing to happen, unless it is not before a limit: a record is written, or there is a
turn of the loop, or the clock goes on to what is due. -/
def step? (s : Scheduler) (limit : Option Nat) : Option Scheduler :=
  if s.writer.any fun w => w ≤ s.now then some ({ s.record with now := s.now + 1 }).rouse
  else
    match s.perform? with
    | some after => some ({ after with now := s.now + s.pace.turn }).rouse
    | none =>
      match s.due? with
      | some due =>
        if isOver limit due then none else some ({ s with now := max (s.now + 1) due }).rouse
      | none => none

/-- Run until something has come about, or there is nothing to wait for, or a time is reached. -/
def runUntil (goal : Scheduler → Bool) (limit : Option Nat) : Nat → Scheduler → Scheduler
  | 0, s => s
  | rounds + 1, s =>
    if goal s || isOver limit s.now then s
    else
      match s.step? limit with
      | some after => runUntil goal limit rounds after
      | none => { s with now := max s.now (limit.getD s.now) }

/-- Wait for something, for so many nanoseconds at the most. Each step takes one at least. -/
def waitFor (s : Scheduler) (goal : Scheduler → Bool) (nanoseconds : Nat) : Scheduler :=
  runUntil goal (some (s.now + nanoseconds)) nanoseconds s

def isDone (id : String) (s : Scheduler) : Bool :=
  ((s.engine.execution? id).map fun x => x.phase.isDone).getD true

/-- Start an execution. -/
def start (s : Scheduler) (id : String) (machine : Option Machine) (input limit : Datum) :
    Except Engine.StartError Scheduler :=
  (s.engine.start s.instant id machine input limit).map fun (e, events) =>
    (({ s with engine := e, now := s.now + s.pace.turn }).see events |>.soon (.begin id)).rouse

def addCallback (s : Scheduler) (id : String) (c : Callback) :
    Option (Scheduler × Option String) :=
  (s.engine.addCallback id c).map fun (e, events, raised) =>
    (({ s with engine := e }).see events, raised)

/-- Release what calls wait for, now and from now on. -/
def release (s : Scheduler) (gate : String) : Scheduler :=
  let freed := s.held.filter fun h => h.1 = gate
  let s := { s with
    released := gate :: s.released
    held := s.held.filter fun h => h.1 ≠ gate
    answers := s.answers ++ freed.map (·.2) }
  employ s.queued s

/-- Whether the loop still has to do with an execution. -/
def isBusy (x : Execution) : Bool :=
  match x.phase with
  | .done .. => false
  | .running (.ended r) => (Outcome.ofResult? x.deadline r).isSome
  | _ => true

/-- Whether all executions have been given up and have come to an end. -/
def isCancelled (s : Scheduler) : Bool :=
  !(s.ready.any fun | .cancelAll => true | .move _ => false) &&
    s.engine.executions.all fun x => !isBusy x.2

/-- How long closing waits for executions to end, in nanoseconds. -/
def closingTime : Nat := 5 * tenTo 9

/-- Write all that is on its way. -/
def drain : Nat → Scheduler → Scheduler
  | 0, s => s
  | n + 1, s => drain n s.record

/-- Nothing goes on any more, but that records on their way are written. -/
def stop (s : Scheduler) : Scheduler :=
  drain s.engine.writing.length { s with
    engine := s.engine.stop, ready := [], timers := [], queued := [], answers := [] }

/-- Close the engine, unless that takes too long. What is ready comes before executions are given
up. -/
def close? (s : Scheduler) : Option Scheduler :=
  if s.engine.closed then some s
  else
    let s := waitFor { s with engine := s.engine.close, ready := s.ready ++ [.cancelAll] }
      isCancelled closingTime
    if s.isCancelled then some s.stop else none

end Scheduler

end ReminderFlow
