import ReminderFlow.Proofs.Engine.Lifecycle

namespace ReminderFlow

namespace Execution

/-- The status is that of the outcome, and an execution with an outcome is in no state any more. -/
structure Settled (x : Execution) (o : Outcome) : Prop where
  outcome : x.outcome? = some o
  status : x.status = o.status
  terminal : o.status.isTerminal = true
  states : x.states = []

theorem outcome?_of_end {x : Execution} {at_ : Instant} {o : Outcome}
    (h : x.phase.end? = some (at_, o)) : x.outcome? = some o := by
  rw [outcome?, h]
  rfl

theorem outcome?_eq_none_of_running {x : Execution} {c : Chain} (h : x.phase = .running c) :
    x.outcome? = none := by
  rw [outcome?, h]
  rfl

theorem status_of_outcome? {x : Execution} {o : Outcome} (h : x.outcome? = some o) :
    x.status = o.status := by
  rw [status, h]
  rfl

end Execution

namespace Engine

open Relation (ReflTransGen)

theorem Change.outcome {x y : Execution} (h : Change x y) {o : Outcome} (ho : x.outcome? = some o) :
    y.outcome? = some o ∧ y.states = x.states := by
  cases h with
  | begin phase =>
    rw [Execution.outcome?, phase] at ho
    cases ho
  | settle now phase =>
    rw [Execution.outcome?_eq_none_of_running phase] at ho
    cases ho
  | cut now phase how =>
    rw [Execution.outcome?_eq_none_of_running phase] at ho
    cases ho
  | release phase =>
    rw [Execution.outcome?, phase] at ho
    exact ⟨ho, rfl⟩
  | callback c unended =>
    rw [unended] at ho
    cases ho

theorem outcome_of_changes {x y : Execution} (h : ReflTransGen Change x y) {o : Outcome}
    (ho : x.outcome? = some o) : y.outcome? = some o ∧ y.states = x.states := by
  induction h with
  | refl => exact ⟨ho, rfl⟩
  | tail _ hchange ih =>
    obtain ⟨hz, hstates⟩ := ih
    obtain ⟨hy, hsame⟩ := hchange.outcome hz
    exact ⟨hy, hsame.trans hstates⟩

theorem not_moved_of_outcome {e : Engine} {id : String} {a : Action} {x y : Execution} {o : Outcome}
    (ho : x.outcome? = some o) : ¬Moved e id a x y := by
  rintro ⟨now, address, move, c, next, seen, -, hphase, -⟩
  rw [Execution.outcome?_eq_none_of_running hphase] at ho
  cases ho

/-- Nothing that happens takes an outcome away or puts another one in its place. -/
theorem Happens.outcome {e after : Engine} {a : Action} {events : List Event} {id : String}
    {x : Execution} {o : Outcome} (h : Happens e a after events) (hx : e.execution? id = some x)
    (ho : x.outcome? = some o) :
    ∃ y, after.execution? id = some y ∧ y.outcome? = some o ∧ y.states = x.states := by
  obtain ⟨y, hy, hchanges | hmoved⟩ := h.becomes hx
  · exact ⟨y, hy, outcome_of_changes hchanges ho⟩
  · exact absurd hmoved (not_moved_of_outcome ho)

theorem Run.outcome {e after : Engine} {actions : List Action} {more : List Event} {id : String}
    {x : Execution} {o : Outcome} (hrun : Run e actions after more) (hx : e.execution? id = some x)
    (ho : x.outcome? = some o) :
    ∃ y, after.execution? id = some y ∧ y.outcome? = some o ∧ y.states = x.states := by
  induction hrun with
  | rest => exact ⟨x, hx, ho, rfl⟩
  | next before happens ih =>
    obtain ⟨z, hz, hoz, hstates⟩ := ih
    obtain ⟨y, hy, hoy, hsame⟩ := happens.outcome hz hoz
    exact ⟨y, hy, hoy, hsame.trans hstates⟩

theorem Change.settled {x y : Execution} (h : Change x y)
    (hx : ∀ o, x.outcome? = some o → x.Settled o) : ∀ o, y.outcome? = some o → y.Settled o := by
  intro o ho
  have hstatus := Execution.status_of_outcome? ho
  cases h with
  | begin phase => cases ho
  | settle now phase told =>
    obtain rfl := Option.some.inj ho
    exact ⟨rfl, hstatus, isTerminal_of_ofResult? told, rfl⟩
  | cut now phase how =>
    obtain rfl := Option.some.inj ho
    refine ⟨rfl, hstatus, ?_, rfl⟩
    rcases how with rfl | rfl <;> rfl
  | @release at_ outcome phase =>
    obtain rfl := Option.some.inj ho
    have hbefore := hx outcome (by rw [Execution.outcome?, phase]; rfl)
    exact ⟨rfl, hstatus, hbefore.terminal, hbefore.states⟩
  | callback c unended =>
    rw [show ({ x with callbacks := x.callbacks ++ [c] } : Execution).outcome? = x.outcome? from rfl,
      unended] at ho
    cases ho

/-- At any point of a run, an execution that has an outcome is settled. -/
theorem Run.settled {first e : Engine} {actions : List Action} {events : List Event} {id : String}
    (hrun : Run first actions e events) (hfirst : first.execution? id = none) {x : Execution}
    (hx : e.execution? id = some x) {o : Outcome} (ho : x.outcome? = some o) : x.Settled o := by
  refine hrun.invariant (fun x => ∀ o, x.outcome? = some o → x.Settled o) hfirst ?_ ?_ ?_ x hx o ho
  · intro m input limit doc now deadline passed hmem hdoc o ho
    cases ho
  · exact fun x y hchange hsettled => hchange.settled hsettled
  · rintro earlier d before a x y - - - ⟨now, address, move, c, next, seen, -, -, -, states, rfl⟩ - o ho
    cases ho

theorem Run.append {first d after : Engine} {actions further : List Action}
    {events more : List Event} (h : Run first actions d events) (h' : Run d further after more) :
    Run first (actions ++ further) after (events ++ more) := by
  induction h' with
  | rest =>
    rw [List.append_nil, List.append_nil]
    exact h
  | next before happens ih =>
    rw [← List.append_assoc, ← List.append_assoc]
    exact ih.next happens

/-- Somewhere in a run stands each of its actions. -/
theorem Run.split {first e : Engine} {actions : List Action} {events : List Event} {a : Action}
    (hrun : Run first actions e events) (ha : a ∈ actions) :
    ∃ before d seen d' shown rest more, actions = before ++ a :: rest ∧
      events = seen ++ (shown ++ more) ∧ Run first before d seen ∧ Happens d a d' shown ∧
      Run d' rest e more := by
  induction hrun with
  | rest => cases ha
  | @next actions b e after events more before happens ih =>
    rcases List.mem_append.1 ha with hmem | hlast
    · obtain ⟨earlier, d, seen, d', shown, rest, later, rfl, rfl, hbefore, hhere, hafter⟩ := ih hmem
      refine ⟨earlier, d, seen, d', shown, rest ++ [b], later ++ more, ?_, ?_, hbefore, hhere,
        hafter.next happens⟩
      · simp
      · simp
    · obtain rfl := List.mem_singleton.1 hlast
      exact ⟨actions, e, events, after, more, [], [], by simp, by simp, before, happens, .rest⟩

end Engine

end ReminderFlow
