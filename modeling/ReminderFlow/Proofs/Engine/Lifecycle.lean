import Mathlib.Logic.Relation
import ReminderFlow.Proofs.Engine.Moves
import ReminderFlow.Proofs.Engine.Story
import ReminderFlow.Proofs.Run.Contents

namespace ReminderFlow.Engine

open Relation (ReflTransGen)

/-- A change of an execution that leaves its chains as they are, or ends them. -/
inductive Change : Execution → Execution → Prop where
  | begin {x : Execution} (phase : x.phase = .scheduled) :
      Change x { x with phase := .running (.ready x.machine x.machine.start x.input) }
  | settle {x : Execution} {r : Except Failure Document} {outcome : Outcome} (now : Instant)
      (phase : x.phase = .running (.ended r)) (told : Outcome.ofResult? x.deadline r = some outcome) :
      Change x { x with states := [], phase := .finishing now outcome }
  | cut {x : Execution} {c : Chain} {outcome : Outcome} (now : Instant) (phase : x.phase = .running c)
      (how : outcome = .timedOut x.deadline ∨ outcome = .cancelled) :
      Change x { x with states := [], phase := .finishing now outcome }
  | release {x : Execution} {at_ : Instant} {outcome : Outcome}
      (phase : x.phase = .finishing at_ outcome) :
      Change x { x with phase := .done at_ outcome, callbacks := [] }
  | callback {x : Execution} (c : Callback) (unended : x.outcome? = none) :
      Change x { x with callbacks := x.callbacks ++ [c] }

/-- The execution is there afterwards if it was before, and has changed any number of times. -/
structure Becomes (id : String) (e after : Engine) : Prop where
  absent : e.execution? id = none → after.execution? id = none
  present : ∀ x, e.execution? id = some x →
    ∃ y, after.execution? id = some y ∧ ReflTransGen Change x y

theorem becomes_of_same {id : String} {e after : Engine}
    (h : after.execution? id = e.execution? id) : Becomes id e after :=
  ⟨fun hnone => h.trans hnone, fun x hx => ⟨x, h.trans hx, .refl⟩⟩

theorem becomes_of_put {id other : String} {e after : Engine} {x y : Execution}
    (hx : e.execution? other = some x) (hchange : Change x y)
    (ha : ∀ id, after.execution? id = (e.put other y).execution? id) : Becomes id e after := by
  by_cases hne : id = other
  · subst hne
    refine ⟨fun hnone => ?_, fun z hz => ?_⟩
    · rw [hx] at hnone
      cases hnone
    · obtain rfl := Option.some.inj (hx.symm.trans hz)
      exact ⟨y, (ha id).trans (e.execution?_put_self id y), .single hchange⟩
  · exact becomes_of_same ((ha id).trans (e.execution?_put_of_ne hne y))

theorem Moves.becomes {e after : Engine} {now : Instant} {move : Move} {events : List Event}
    (h : Moves e now move after events) {id : String}
    (hmove : ∀ address inner, move ≠ .chain id address inner) : Becomes id e after := by
  cases h with
  | begin found phase => exact becomes_of_put found (.begin phase) fun _ => rfl
  | @chain other address inner _ _ _ _ _ _ _ found phase made followed =>
    have hne : id ≠ other := by
      rintro rfl
      exact hmove address inner rfl
    apply becomes_of_same
    rw [execution?_put_of_ne _ hne, ← execution?_follow e, followed]
  | settle found phase told settled =>
    refine becomes_of_put found (.settle now phase told) fun id => ?_
    rw [← execution?_settle, settled]
  | expire found phase unended suspended settled =>
    refine becomes_of_put found (.cut now phase (.inl rfl)) fun id => ?_
    rw [← execution?_settle, settled]
  | cancel found phase closed unended suspended settled =>
    refine becomes_of_put found (.cut now phase (.inr rfl)) fun id => ?_
    rw [← execution?_settle, settled]
  | withdraw found phase closed unwritten => exact becomes_of_same rfl
  | write first archive => exact becomes_of_same rfl
  | release found phase gone => exact becomes_of_put found (.release phase) fun _ => rfl

/-- One chain of the execution has made a move, and the execution has followed it. -/
structure Moved (e : Engine) (id : String) (a : Action) (x y : Execution) : Prop where
  here : ∃ now address move c next seen, a = .move now (.chain id address move) ∧
    x.phase = .running c ∧ c.stepAt e.registry.contains move address "" = some (next, seen) ∧
    ∃ states, y = { x with phase := .running next, states := states }

theorem becomes_addCallback {e after : Engine} {id other : String} {callback : Callback}
    {events : List Event} {raised : Option String}
    (done : e.addCallback other callback = some (after, events, raised)) : Becomes id e after := by
  obtain ⟨x, hx, ⟨rfl, -⟩ | ⟨rfl, hunended, -⟩⟩ := callback_of_addCallback done
  · exact becomes_of_same rfl
  · exact becomes_of_put hx (.callback callback hunended) fun _ => rfl

theorem becomes_register_of_ne {e after : Engine} {id other : String} {now deadline : Instant}
    {m : Machine} {doc : Document} {events : List Event} (hne : id ≠ other)
    (done : e.register now other m doc deadline = (after, events)) : Becomes id e after := by
  obtain ⟨hexecutions, -⟩ := register_spec done
  apply becomes_of_same
  rw [execution?, hexecutions]
  exact e.execution?_put_of_ne hne _

/-- An execution that the engine has changes, or a chain of it moves. -/
theorem Happens.becomes {e after : Engine} {a : Action} {events : List Event} {id : String}
    {x : Execution} (h : Happens e a after events) (hx : e.execution? id = some x) :
    ∃ y, after.execution? id = some y ∧ (ReflTransGen Change x y ∨ Moved e id a x y) := by
  have hchanges (hbecomes : Becomes id e after) :
      ∃ y, after.execution? id = some y ∧ (ReflTransGen Change x y ∨ Moved e id a x y) := by
    obtain ⟨y, hy, hchange⟩ := hbecomes.present x hx
    exact ⟨y, hy, .inl hchange⟩
  cases h with
  | @started now other _ _ _ _ _ _ _ _ fresh prepared done =>
    have hne : id ≠ other := by
      rintro rfl
      rw [hx] at fresh
      cases fresh
    exact hchanges (becomes_register_of_ne hne done)
  | refused done => exact hchanges (becomes_of_same rfl)
  | @moved now move _ _ honest done =>
    have hmoves := moves_of_step done
    by_cases hchain : ∃ address inner, move = .chain id address inner
    · obtain ⟨address, inner, rfl⟩ := hchain
      cases hmoves with
      | @chain _ _ _ z y c next seen d _ found phase made followed =>
        obtain rfl := Option.some.inj (hx.symm.trans found)
        obtain ⟨-, -, ⟨states, hstates⟩, -⟩ :=
          e.follow_spec now id { x with phase := .running next } seen
        rw [followed] at hstates
        exact ⟨y, d.execution?_put_self id y,
          .inr ⟨now, address, inner, c, next, seen, rfl, phase, made, states, hstates⟩⟩
    · exact hchanges (hmoves.becomes fun address inner heq => hchain ⟨address, inner, heq⟩)
  | called done => exact hchanges (becomes_addCallback done)
  | closed => exact hchanges (becomes_of_same rfl)
  | stopped => exact hchanges (becomes_of_same rfl)

/-- An execution that the engine has not is there only by its start. -/
theorem Happens.starts {e after : Engine} {a : Action} {events : List Event} {id : String}
    {y : Execution} (h : Happens e a after events) (hnone : e.execution? id = none)
    (hy : after.execution? id = some y) :
    ∃ m input limit doc now deadline passed, a = .start now id (some m) input limit passed ∧
      Document.ofDatum input = .ok doc ∧ y = ⟨m, doc, now, deadline, [], .scheduled, []⟩ := by
  have hnever (hbecomes : Becomes id e after) : False := by
    rw [hbecomes.absent hnone] at hy
    cases hy
  cases h with
  | @started now other machine input limit m doc deadline _ _ fresh prepared done passed =>
    by_cases hne : id = other
    · subst hne
      obtain ⟨rfl, hdoc, -⟩ := prepare_eq prepared
      obtain ⟨hexecutions, -⟩ := register_spec done
      rw [execution?, hexecutions, put, Members.lookup_insert_self] at hy
      obtain rfl := Option.some.inj hy
      exact ⟨m, input, limit, doc, now, deadline, passed, rfl, hdoc, rfl⟩
    · exact (hnever (becomes_register_of_ne hne done)).elim
  | refused done => exact (hnever (becomes_of_same rfl)).elim
  | @moved now move _ _ honest done =>
    have hmoves := moves_of_step done
    refine (hnever (hmoves.becomes fun address inner heq => ?_)).elim
    subst heq
    cases hmoves with
    | chain found phase made followed =>
      rw [hnone] at found
      cases found
  | called done => exact (hnever (becomes_addCallback done)).elim
  | closed => exact (hnever (becomes_of_same rfl)).elim
  | stopped => exact (hnever (becomes_of_same rfl)).elim

/-- What holds of new executions and is kept by every change holds at any point of a run. -/
theorem Run.invariant {first e : Engine} {actions : List Action} {events : List Event}
    {id : String} (P : Execution → Prop) (hrun : Run first actions e events)
    (hfirst : first.execution? id = none)
    (hnew : ∀ m input limit doc now deadline passed,
      .start now id (some m) input limit passed ∈ actions →
      Document.ofDatum input = .ok doc → P ⟨m, doc, now, deadline, [], .scheduled, []⟩)
    (hchange : ∀ x y, Change x y → P x → P y)
    (hmoved : ∀ earlier d before a x y, earlier ++ [a] <+: actions → Run first earlier d before →
      d.execution? id = some x → Moved d id a x y → P x → P y) :
    ∀ x, e.execution? id = some x → P x := by
  induction hrun with
  | rest =>
    intro x hx
    rw [hfirst] at hx
    cases hx
  | @next actions a d after events more before happens ih =>
    have hearlier := ih
      (fun m input limit doc now deadline passed hmem =>
        hnew m input limit doc now deadline passed (List.mem_append_left _ hmem))
      fun earlier d' before a' x y hinitial =>
        hmoved earlier d' before a' x y (hinitial.trans (List.prefix_append _ _))
    intro y hy
    cases hx : d.execution? id with
    | some x =>
      obtain ⟨z, hz, hlater⟩ := happens.becomes hx
      obtain rfl := Option.some.inj (hy.symm.trans hz)
      rcases hlater with hchanges | hchain
      · exact hchanges.rec (hearlier x hx) fun _ hone hp => hchange _ _ hone hp
      · exact hmoved actions d events a x y (List.prefix_refl _) before hx hchain (hearlier x hx)
    | none =>
      obtain ⟨m, input, limit, doc, now, deadline, passed, rfl, hdoc, rfl⟩ := happens.starts hx hy
      exact hnew m input limit doc now deadline passed (by simp) hdoc

theorem isTerminal_of_ofFault? {deadline : Instant} {fault : Fault} {outcome : Outcome}
    (h : Outcome.ofFault? deadline fault = some outcome) : outcome.status.isTerminal = true := by
  unfold Outcome.ofFault? at h
  split at h
  · cases h
    rfl
  · cases h
    rfl
  · obtain ⟨cause, -, rfl⟩ := Option.map_eq_some_iff.1 h
    rfl

theorem isTerminal_of_ofResult? {deadline : Instant} {r : Except Failure Document}
    {outcome : Outcome} (h : Outcome.ofResult? deadline r = some outcome) :
    outcome.status.isTerminal = true := by
  unfold Outcome.ofResult? at h
  split at h
  · cases h
    rfl
  · exact isTerminal_of_ofFault? h
  · obtain ⟨report, -, rfl⟩ := Option.map_eq_some_iff.1 h
    rfl

/-- An execution that has an outcome no longer runs. -/
theorem Run.isTerminal {first e : Engine} {actions : List Action} {events : List Event}
    {id : String} (hrun : Run first actions e events) (hfirst : first.execution? id = none)
    {x : Execution} (hx : e.execution? id = some x) {at_ : Instant} {outcome : Outcome}
    (hend : x.phase.end? = some (at_, outcome)) : outcome.status.isTerminal = true := by
  refine hrun.invariant (fun x => ∀ at_ outcome, x.phase.end? = some (at_, outcome) →
    outcome.status.isTerminal = true) hfirst ?_ ?_ ?_ x hx at_ outcome hend
  · intro m input limit doc now deadline passed hmem hdoc at_ outcome hend
    cases hend
  · intro x y hchange hterminal at_ outcome hend
    cases hchange with
    | begin phase => cases hend
    | settle now phase told =>
      cases hend
      exact isTerminal_of_ofResult? told
    | cut now phase how =>
      cases hend
      rcases how with rfl | rfl <;> rfl
    | release phase =>
      cases hend
      exact hterminal at_ outcome (by rw [phase]; rfl)
    | callback c unended => exact hterminal at_ outcome hend
  · rintro earlier d before a x y - - - ⟨now, address, move, c, next, seen, -, -, -, states, rfl⟩ -
      at_ outcome hend
    cases hend

/-- The machine, every document and every failure that is to be seen have the properties. -/
structure Holds (K : Chain.Contents) (x : Execution) : Prop where
  machine : K.machine x.machine
  input : K.document x.input
  chain : ∀ c, x.phase = .running c → c.Holds K
  ending : ∀ at_ outcome, x.phase.end? = some (at_, outcome) →
    (∃ r, Outcome.ofResult? x.deadline r = some outcome ∧ (Chain.ended r).Holds K) ∨
      (∃ deadline, outcome = .timedOut deadline) ∨ outcome = .cancelled

variable {K : Chain.Contents}

theorem Holds.change {x y : Execution} (h : Holds K x) (hchange : Change x y) : Holds K y := by
  cases hchange with
  | begin phase =>
    refine ⟨h.machine, h.input, fun c hc => ?_, fun at_ outcome hend => ?_⟩
    · cases hc
      exact .ready h.machine h.input
    · cases hend
  | @settle r outcome now phase told =>
    refine ⟨h.machine, h.input, fun c hc => ?_, fun at_ outcome hend => ?_⟩
    · cases hc
    · cases hend
      exact .inl ⟨r, told, h.chain _ phase⟩
  | cut now phase how =>
    refine ⟨h.machine, h.input, fun c hc => ?_, fun at_ outcome hend => ?_⟩
    · cases hc
    · cases hend
      rcases how with rfl | rfl
      · exact .inr (.inl ⟨x.deadline, rfl⟩)
      · exact .inr (.inr rfl)
  | release phase =>
    refine ⟨h.machine, h.input, fun c hc => ?_, fun at_ outcome hend => h.ending at_ outcome ?_⟩
    · cases hc
    · rw [phase]
      exact hend
  | callback c unended => exact ⟨h.machine, h.input, h.chain, h.ending⟩

/-- Every Fail state that a chain of the execution enters in the run gives such a failure. -/
def FailsOnlyWith (F : Failure → Prop) (first : Engine) (actions : List Action) (id : String) :
    Prop :=
  ∀ earlier e seen now address x c m name doc cause error,
    earlier ++ [.move now (.chain id address .enter)] <+: actions → Run first earlier e seen →
    e.execution? id = some x → x.phase = .running c → c.at? address = some (.ready m name doc) →
    m.state? name = some (.fail cause error) → F (.raised error cause)

/-- Every machine that is started under the id has the property. -/
def StartsOnly (P : Machine → Prop) (actions : List Action) (id : String) : Prop :=
  ∀ now m input limit passed, .start now id (some m) input limit passed ∈ actions → P m

theorem Run.holds {first e : Engine} {actions : List Action} {events : List Event} {id : String}
    (kept : K.Kept) (hrun : Run first actions e events) (hfirst : first.execution? id = none)
    (hmachine : StartsOnly K.machine actions id)
    (hinput : ∀ input doc, Document.ofDatum input = .ok doc → K.document doc)
    (hfails : FailsOnlyWith K.failure first actions id) :
    ∀ x, e.execution? id = some x → Holds K x := by
  refine hrun.invariant (Holds K) hfirst ?_ ?_ ?_
  · intro m input limit doc now deadline passed hmem hdoc
    refine ⟨hmachine now m input limit passed hmem, hinput input doc hdoc, fun c hc => ?_,
      fun at_ outcome hend => ?_⟩
    · cases hc
    · cases hend
  · exact fun x y hchange h => h.change hchange
  · rintro earlier d before a x y hinitial hearlier hx
      ⟨now, address, move, c, next, seen, rfl, hphase, made, states, rfl⟩ h
    refine ⟨h.machine, h.input, fun c' hc' => ?_, fun at_ outcome hend => ?_⟩
    · cases hc'
      refine (h.chain c hphase).stepAt kept ?_ made
      rintro d' hd m name doc cause error rfl rfl hstate
      exact hfails earlier d before now address x c m name doc cause error hinitial hearlier hx hphase
        hd hstate
    · cases hend

end ReminderFlow.Engine
