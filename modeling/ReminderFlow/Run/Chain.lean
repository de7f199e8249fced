import ReminderFlow.Duration
import ReminderFlow.Machine.Basic
import ReminderFlow.Run.Failure

namespace ReminderFlow

/-- Where a chain has stopped: in a state of its machine, with a successor to go on to. -/
structure Stop where
  machine : Machine
  state : String
  next : Value
  document : Document

/-- A call of an executor, and where its output goes. -/
structure Call where
  executor : String
  input : Value
  outputPath : Value

inductive Chain where
  /-- Not begun. -/
  | created (m : Machine) (doc : Document)
  /-- About to enter a state. -/
  | ready (m : Machine) (state : String) (doc : Document)
  | waiting (stop : Stop) (seconds : Number)
  | working (stop : Stop) (call : Call) (started : Bool)
  | forked (stop : Stop) (branches : List Chain)
  | ended (result : Except Failure Document)

namespace Chain

inductive Event where
  | entered (branch state type : String)
  | left (branch : String)
  | called (branch executor : String) (input : Value)
  | refused (branch executor text : String)

inductive Move where
  | begin
  | enter
  | wake
  | call
  | reply (result : Except Fault Datum)
  | join

def result? : Chain → Option (Except Failure Document)
  | ended r => some r
  | _ => none

def isReady : Chain → Bool
  | ready .. => true
  | _ => false

/-- Go to a state that has to be there. -/
def jump (m : Machine) (target : Value) (doc : Document) : Chain :=
  match target with
  | .str name => ready m name doc
  | v => ended (.error (.crash (.missingState v)))

/-- Go on to the successor, or end where there is none. -/
def follow (m : Machine) (next : Value) (doc : Document) : Chain :=
  if next.isNull then ended (.ok doc) else jump m next doc

def fail (f : Failure) : Chain := ended (.error f)

/-- The successor that the first rule that holds names, or the default. -/
def choose (doc : Document) (default : Value) : List Rule → Except Failure Value
  | [] => .ok default
  | r :: rest =>
    match r.condition.holds doc with
    | .error e => .error (.ofConditionError e)
    | .ok true => .ok r.next
    | .ok false => choose doc default rest

/-- How long to wait: as the state says, or as the document does. -/
def waitTime (secondsPath seconds : Value) (doc : Document) : Except Failure Number := do
  let given ← if seconds.isNull then (doc.get (Datum.ofValue secondsPath)).mapError .ofDocumentError
    else .ok seconds
  given.duration?.mapError fun
    | .invalid => .showing .duration given
    | .tooLarge => .crash .numberTooLarge

/-- The call that a task makes; the executor is looked up before the input. -/
def taskCall (knows : String → Bool) (resource inputPath outputPath : Value) (doc : Document) :
    Except Failure Call :=
  match resource with
  | .str id =>
    if knows id then
      ((doc.get (Datum.ofValue inputPath)).mapError .ofDocumentError).map fun v =>
        ⟨id, v, outputPath⟩
    else .error (.showing .unknownExecutor resource)
  | _ => .error (.showing .unknownExecutor resource)

/-- What a chain becomes by entering a state. -/
def enterState (knows : String → Bool) (m : Machine) (name : String) (doc : Document) :
    State → Chain
  | .succeed => ended (.ok doc)
  | .fail cause error => fail (.raised error cause)
  | .pass next => follow m next doc
  | .choice rules default =>
    match choose doc default rules with
    | .ok target => jump m target doc
    | .error f => fail f
  | .wait secondsPath seconds next =>
    match waitTime secondsPath seconds doc with
    | .ok t => waiting ⟨m, name, next, doc⟩ t
    | .error f => fail f
  | .task resource inputPath outputPath next =>
    match taskCall knows resource inputPath outputPath doc with
    | .ok call => working ⟨m, name, next, doc⟩ call false
    | .error f => fail f
  | .parallel branches _ next => forked ⟨m, name, next, doc⟩ (branches.map fun b => created b doc)

/-- The failure of a task whose output cannot be stored. Only faults of the type of what was handed
over are foreseen, and telling them may raise another one. -/
def refused (executor : String) (fault : Fault) : Failure :=
  match fault.family with
  | .type =>
    match fault.text with
    | .ok text => .task executor s!"Executor returned invalid output: {text}"
    | .error other => .crash (.outside other)
  | _ => .crash (.outside fault)

/-- The document with the output of a call in it. -/
def store (stop : Stop) (call : Call) (output : Datum) : Except Failure Document :=
  (stop.document.set (Datum.ofValue call.outputPath) output).mapError fun
    | .incompatible e => refused call.executor e.fault
    | e => .ofDocumentError e

/-- The failure of a call that raised a fault, unless telling it raises another one. -/
def failed (executor : String) (fault : Fault) : Failure :=
  match fault.cause with
  | .ok cause => .task executor cause
  | .error other => .crash (.outside other)

/-- What a chain becomes by the reply to its call. -/
def take (stop : Stop) (call : Call) : Except Fault Datum → Chain
  | .error fault => fail (failed call.executor fault)
  | .ok output =>
    match store stop call output with
    | .ok doc => follow stop.machine stop.next doc
    | .error f => fail f

/-- A call that raised a fault is told of, if the fault has a text. -/
def refusal (branch executor : String) : Except Fault Datum → List Event
  | .error fault =>
    match fault.text with
    | .ok text => [.refused branch executor text]
    | .error _ => []
  | .ok _ => []

theorem refusal_cases (branch executor : String) (reply : Except Fault Datum) :
    refusal branch executor reply = [] ∨
      ∃ text, refusal branch executor reply = [.refused branch executor text] := by
  unfold refusal
  split
  · split
    · exact .inr ⟨_, rfl⟩
    · exact .inl rfl
  · exact .inl rfl

/-- The first failure in the order of the branches, or the list of their documents. -/
def joined (results : List (Except Failure Document)) : Except Failure Document :=
  (results.mapM id).map fun docs => ⟨.arr (docs.map Document.value)⟩

/-- One move of a chain, and what is to be seen of it. -/
def move? (knows : String → Bool) (branch : String) : Move → Chain → Option (Chain × List Event)
  | .begin, created m doc => some (ready m m.start doc, [])
  | .enter, ready m name doc =>
    match m.state? name with
    | some s => some (enterState knows m name doc s, [.entered branch name s.type])
    | none => some (fail (.crash (.missingState (.str name))), [])
  | .wake, waiting stop _ => some (follow stop.machine stop.next stop.document, [])
  | .call, working stop call false =>
    some (working stop call true, [.called branch call.executor call.input])
  | .reply r, working stop call true =>
    some (take stop call r, refusal branch call.executor r)
  | .join, forked stop branches =>
    (branches.mapM result?).map fun results =>
      match joined results with
      | .ok doc => (follow stop.machine stop.next doc, [])
      | .error f => (fail f, [])
  | _, _ => none

/-- The main chain has no name; a branch that ends is left. -/
def leaving (branch : String) : List Event :=
  if branch = "" then [] else [.left branch]

def step (knows : String → Bool) (branch : String) (move : Move) (c : Chain) :
    Option (Chain × List Event) :=
  (move? knows branch move c).map fun (next, events) =>
    (next, if next.result?.isSome then events ++ leaving branch else events)

/-- The name of a branch: the state that forked, behind the name of the chain it is in, and the
place among the branches. -/
def branchName (parent state : String) (i : Nat) : String :=
  (if parent = "" then "" else parent ++ "/") ++ state ++ "[" ++ toString i ++ "]"

/-- A move of the chain at an address, which lists the branches that lead to it. -/
def stepAt (knows : String → Bool) (move : Move) :
    List Nat → String → Chain → Option (Chain × List Event)
  | [], branch, c => step knows branch move c
  | i :: rest, branch, forked stop branches => do
    let child ← branches[i]?
    let (next, events) ← stepAt knows move rest (branchName branch stop.state i) child
    some (forked stop (branches.set i next), events)
  | _ :: _, _, _ => none

def at? : List Nat → Chain → Option Chain
  | [], c => some c
  | i :: rest, forked _ branches => branches[i]?.bind fun child => child.at? rest
  | _ :: _, _ => none

mutual

/-- Whether nothing in the tree is between two states, so that it may be interrupted. -/
def isSuspended : Chain → Bool
  | ready .. => false
  | forked _ branches => allSuspended branches
  | _ => true

def allSuspended : List Chain → Bool
  | [] => true
  | c :: rest => isSuspended c && allSuspended rest

end

mutual

/-- The branches that are left when the tree is given up, inner ones first. What has not begun and
what has ended is not left. -/
def abandon (branch : String) : Chain → List Event
  | created .. => []
  | ended _ => []
  | forked stop branches => abandonAll branch stop.state 0 branches ++ leaving branch
  | _ => leaving branch

def abandonAll (parent state : String) (i : Nat) : List Chain → List Event
  | [] => []
  | c :: rest => abandon (branchName parent state i) c ++ abandonAll parent state (i + 1) rest

end

/-- The states that chains are in, by the names of the chains, as events change them. -/
def Event.track (states : List (String × String)) : Event → List (String × String)
  | entered branch state _ => Members.insert branch state states
  | left branch => Members.erase branch states
  | _ => states

end Chain

end ReminderFlow
