import Mathlib.Tactic.Common
import ReminderFlow.Engine.Basic
import ReminderFlow.Proofs.Run.Course

namespace ReminderFlow.Engine

/-- What is done to an engine from outside, and the moves that it makes by itself. -/
inductive Action where
  /-- A start that has `passed` has found the engine open, which may have been closed since. -/
  | start (now : Instant) (id : String) (machine : Option Machine) (input limit : Datum)
      (passed : Bool)
  | move (now : Instant) (move : Move)
  | addCallback (id : String) (callback : Callback)
  | close
  | stop

/-- Whether an execution may be ended by the action before its main chain has ended. -/
def Action.Cuts (id : String) : Action → Prop
  | move _ (.expire other) => other = id
  | move _ (.cancel other) => other = id
  | _ => False

instance (id : String) : (a : Action) → Decidable (a.Cuts id)
  | .move _ (.expire other) => inferInstanceAs (Decidable (other = id))
  | .move _ (.cancel other) => inferInstanceAs (Decidable (other = id))
  | .move _ (.begin _) => inferInstanceAs (Decidable False)
  | .move _ (.chain ..) => inferInstanceAs (Decidable False)
  | .move _ (.settle _) => inferInstanceAs (Decidable False)
  | .move _ .write => inferInstanceAs (Decidable False)
  | .move _ (.withdraw _) => inferInstanceAs (Decidable False)
  | .move _ (.release _) => inferInstanceAs (Decidable False)
  | .start .. => inferInstanceAs (Decidable False)
  | .addCallback .. => inferInstanceAs (Decidable False)
  | .close => inferInstanceAs (Decidable False)
  | .stop => inferInstanceAs (Decidable False)

/-- A move that brings along no other reply than one that the executor may give. -/
def Honest (e : Engine) : Move → Prop
  | .chain id address move => ∀ x c, e.execution? id = some x → x.phase = .running c →
      Chain.Honest e.registry.MayReply address c move
  | _ => True

/-- A start that asks whether the engine is closed, or has asked before. -/
def enter (e : Engine) (now : Instant) (id : String) (machine : Option Machine)
    (input limit : Datum) (passed : Bool) : Except StartError (Engine × List Event) :=
  { e with closed := !passed && e.closed }.start now id machine input limit

/-- One action, the engine after it and what was to be seen. No two executions get one id, and
records are taken until the engine is closed. -/
inductive Happens (e : Engine) : Action → Engine → List Event → Prop where
  | started {now : Instant} {id : String} {machine : Option Machine} {input limit : Datum}
      {m : Machine} {doc : Document} {deadline : Instant} {after : Engine} {events : List Event}
      (fresh : e.execution? id = none)
      (prepared : prepare now machine input limit = .ok (m, doc, deadline))
      (done : e.register now id m doc deadline = (after, events)) {passed : Bool}
      (found : passed = true ∨ e.closed = false) :
      Happens e (.start now id machine input limit passed) after events
  | refused {now : Instant} {id : String} {machine : Option Machine} {input limit : Datum}
      {passed : Bool} {fault : StartError}
      (done : e.enter now id machine input limit passed = .error fault) :
      Happens e (.start now id machine input limit passed) e []
  | moved {now : Instant} {move : Move} {after : Engine} {events : List Event}
      (honest : e.Honest move) (done : e.step now move = some (after, events)) :
      Happens e (.move now move) after events
  | called {id : String} {callback : Callback} {after : Engine} {events : List Event}
      {raised : Option String} (done : e.addCallback id callback = some (after, events, raised)) :
      Happens e (.addCallback id callback) after events
  | closed : Happens e .close e.close []
  | stopped (closed : e.closed = true) : Happens e .stop e.stop []

/-- A run: any number of actions that happen one after the other, with all that is to be seen. -/
inductive Run (first : Engine) : List Action → Engine → List Event → Prop where
  | rest : Run first [] first []
  | next {actions : List Action} {a : Action} {e after : Engine} {events more : List Event}
      (before : Run first actions e events) (happens : Happens e a after more) :
      Run first (actions ++ [a]) after (events ++ more)

/-- What an event tells of the chains of one execution. -/
def chainEvent? (id : String) : Event → Option Chain.Event
  | .chain other event => if other = id then some event else none
  | _ => none

/-- What was to be seen of the chains of one execution. -/
def chainEvents (id : String) (events : List Event) : List Chain.Event :=
  events.filterMap (chainEvent? id)

theorem chainEvents_append (id : String) (before after : List Event) :
    chainEvents id (before ++ after) = chainEvents id before ++ chainEvents id after :=
  List.filterMap_append

theorem chainEvents_eq_nil {id : String} {events : List Event}
    (h : ∀ event ∈ events, chainEvent? id event = none) : chainEvents id events = [] :=
  List.filterMap_eq_nil_iff.2 h

theorem chainEvents_chain_self (id : String) (events : List Chain.Event) :
    chainEvents id (events.map (.chain id)) = events := by
  induction events with
  | nil => rfl
  | cons event rest ih =>
    have hhead : chainEvent? id (.chain id event) = some event := if_pos rfl
    rw [List.map_cons, chainEvents, List.filterMap_cons_some hhead]
    exact congrArg _ ih

theorem chainEvents_chain_of_ne {id other : String} (h : other ≠ id)
    (events : List Chain.Event) : chainEvents id (events.map (.chain other)) = [] := by
  apply chainEvents_eq_nil
  intro event hevent
  obtain ⟨inner, -, rfl⟩ := List.mem_map.mp hevent
  exact if_neg h

/-- Events that tell neither of chains nor of how an execution ends. -/
def Notes (events : List Event) : Prop :=
  ∀ event ∈ events, match event with
    | .chain .. => False
    | .settled .. => False
    | _ => True

theorem notes_nil : Notes [] := by
  intro event h
  cases h

theorem Notes.chainEvents {events : List Event} (h : Notes events) (id : String) :
    chainEvents id events = [] := by
  apply chainEvents_eq_nil
  intro event hevent
  cases event with
  | chain other inner => exact (h _ hevent).elim
  | _ => rfl

theorem execution?_put_self (e : Engine) (id : String) (x : Execution) :
    (e.put id x).execution? id = some x :=
  Members.lookup_insert_self id x e.executions

theorem execution?_put_of_ne (e : Engine) {id other : String} (h : other ≠ id) (x : Execution) :
    (e.put id x).execution? other = e.execution? other :=
  Members.lookup_insert_of_ne h x e.executions

/-- All that handing over a record can do: nothing, to drop the record, or to put it on its way. -/
theorem persist_cases (e : Engine) (r : Option Record) :
    ((r = none ∨ e.archive = none) ∧ e.persist r = (e, [])) ∨
      (∃ record, r = some record ∧ e.shut = true ∧ e.persist r = (e, [.dropped record.executionId])) ∨
      ∃ record, r = some record ∧ e.archive.isSome = true ∧ e.shut = false ∧
        e.persist r = ({ e with writing := e.writing ++ [record] }, [.recorded record]) := by
  cases r with
  | none => exact .inl ⟨.inl rfl, rfl⟩
  | some record =>
    cases harchive : e.archive with
    | none => exact .inl ⟨.inr rfl, by simp [persist, harchive]⟩
    | some a =>
      right
      cases hshut : e.shut with
      | true => exact .inl ⟨record, rfl, rfl, by simp [persist, harchive, hshut]⟩
      | false => exact .inr ⟨record, rfl, rfl, rfl, by simp [persist, harchive, hshut]⟩

theorem persist_spec (e : Engine) (r : Option Record) :
    (e.persist r).1.executions = e.executions ∧
      (e.persist r).1.registry = e.registry ∧ Notes (e.persist r).2 := by
  obtain ⟨-, h⟩ | ⟨record, -, -, h⟩ | ⟨record, -, -, -, h⟩ := e.persist_cases r
  · rw [h]
    exact ⟨rfl, rfl, notes_nil⟩
  · rw [h]
    refine ⟨rfl, rfl, fun event hevent => ?_⟩
    rw [List.mem_singleton.1 hevent]
    trivial
  · rw [h]
    refine ⟨rfl, rfl, fun event hevent => ?_⟩
    rw [List.mem_singleton.1 hevent]
    trivial

/-- The records of one event, and how the engine and the execution go on to the next one. -/
theorem follow_cons (e : Engine) (now : Instant) (id : String) (x : Execution)
    (event : Chain.Event) (rest : List Chain.Event) :
    ∃ (e' : Engine) (records : List Event),
      e'.executions = e.executions ∧ e'.registry = e.registry ∧ Notes records ∧
      e.follow now id x (event :: rest) =
        let after := e'.follow now id { x with states := event.track x.states } rest
        (after.1, after.2.1, records ++ .chain id event :: after.2.2) := by
  cases event with
  | entered branch state type =>
    let y : Execution := { x with states := (Chain.Event.entered branch state type).track x.states }
    obtain ⟨hx, hr, hs⟩ := e.persist_spec (some (y.record id now))
    exact ⟨_, _, hx, hr, hs, rfl⟩
  | _ => exact ⟨e, [], rfl, rfl, notes_nil, rfl⟩

theorem follow_spec (e : Engine) (now : Instant) (id : String) (x : Execution)
    (events : List Chain.Event) :
    (e.follow now id x events).1.executions = e.executions ∧
      (e.follow now id x events).1.registry = e.registry ∧
      (∃ states, (e.follow now id x events).2.1 = { x with states := states }) ∧
      ∀ other, chainEvents other (e.follow now id x events).2.2 =
        chainEvents other (events.map (.chain id)) := by
  induction events generalizing e x with
  | nil => exact ⟨rfl, rfl, ⟨x.states, rfl⟩, fun _ => rfl⟩
  | cons event rest ih =>
    obtain ⟨e', records, hx, hr, hs, heq⟩ := e.follow_cons now id x event rest
    obtain ⟨hx', hr', ⟨states, hstates⟩, hs'⟩ :=
      ih e' { x with states := event.track x.states }
    rw [heq]
    refine ⟨hx'.trans hx, hr'.trans hr, ⟨states, hstates⟩, fun other => ?_⟩
    rw [chainEvents_append, hs.chainEvents other, List.map_cons,
      ← List.singleton_append (l := List.map _ _),
      ← List.singleton_append, chainEvents_append, chainEvents_append, hs' other]
    rfl

end ReminderFlow.Engine
