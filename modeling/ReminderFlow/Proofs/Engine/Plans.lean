import ReminderFlow.Proofs.Engine.Offers
import ReminderFlow.Proofs.Engine.Shutdown

namespace ReminderFlow

open Chain (Ensures)

theorem Chain.length_le_of_stepAt {knows : String → Bool} {address : List Nat} {branch : String}
    {move : Move} {c next : Chain} {events : List Event}
    (made : stepAt knows move address branch c = some (next, events)) : events.length ≤ 2 := by
  obtain ⟨name, d, after, -, hmade, -⟩ := reaches_of_stepAt made
  obtain ⟨seen, hmove, rfl⟩ := move?_of_step hmade
  have hseen : seen.length ≤ 1 := by
    unfold move? at hmove
    split at hmove
    case h_1 => cases hmove; exact Nat.zero_le _
    case h_2 => split at hmove <;> cases hmove <;> simp
    case h_3 => cases hmove; exact Nat.zero_le _
    case h_4 => cases hmove; exact le_rfl
    case h_5 r _ call =>
      cases hmove
      obtain h | ⟨text, h⟩ := refusal_cases name call.executor r <;> rw [h] <;> simp
    case h_6 =>
      obtain ⟨results, -, hnext⟩ := Option.map_eq_some_iff.1 hmove
      split at hnext <;> cases hnext <;> exact Nat.zero_le _
    case h_7 => cases hmove
  have hending : (ending name after).length ≤ 1 := by
    unfold ending leaving
    split_ifs <;> simp
  rw [List.length_append]
  omega

namespace Engine

theorem length_writing_persist (e : Engine) (r : Option Record) :
    (e.persist r).1.writing.length ≤ e.writing.length + 1 := by
  obtain ⟨-, h⟩ | ⟨record, -, -, h⟩ | ⟨record, -, -, -, h⟩ := e.persist_cases r <;> rw [h] <;> simp

theorem length_writing_follow (e : Engine) (now : Instant) (id : String) (x : Execution)
    (events : List Chain.Event) :
    (e.follow now id x events).1.writing.length ≤ e.writing.length + events.length := by
  induction events generalizing e x with
  | nil => exact le_rfl
  | cons event rest ih =>
    rw [List.length_cons]
    cases event with
    | entered branch state type =>
      let y : Execution := { x with states := (Chain.Event.entered branch state type).track x.states }
      let r := some (y.record id now)
      have hrest := ih (e.persist r).1 y
      have hfirst := e.length_writing_persist r
      exact hrest.trans (by omega)
    | _ => exact (ih e _).trans (by omega)

/-- A move puts no more than two records on their way. -/
theorem Moves.length_writing {e after : Engine} {now : Instant} {move : Move} {events : List Event}
    (h : Moves e now move after events) : after.writing.length ≤ e.writing.length + 2 := by
  have hsettle {id : String} {x : Execution} {outcome : Outcome} {left : List Chain.Event}
      {crash : Option Fault} (settled : e.settle now id x outcome left crash = (after, events)) :
      after.writing.length ≤ e.writing.length + 2 := by
    have hlength :=
      (e.put id { x with states := [], phase := .finishing now outcome }).length_writing_persist
        ({ x with states := [], phase := .finishing now outcome }.record? id now)
    have hafter := congrArg (fun made => made.1.writing.length) settled
    exact hafter ▸ hlength.trans (Nat.le_succ _)
  cases h with
  | begin => exact Nat.le_add_right _ _
  | @chain id _ _ x _ _ next seen _ _ found phase made followed =>
    have hlength := e.length_writing_follow now id { x with phase := .running next } seen
    rw [followed] at hlength
    exact hlength.trans (Nat.add_le_add_left (Chain.length_le_of_stepAt made) _)
  | settle found phase told settled => exact hsettle settled
  | expire found phase unended suspended settled => exact hsettle settled
  | cancel found phase closed unended suspended settled => exact hsettle settled
  | withdraw => exact (List.length_filter_le _ _).trans (Nat.le_add_right _ _)
  | write first archive =>
    rw [first, List.length_cons]
    exact (Nat.le_succ _).trans (Nat.le_add_right _ _)
  | release => exact Nat.le_add_right _ _

/-- Moves do not close the engine. -/
theorem Plays.closed_eq_false {e after : Engine} (h : Plays e after) (he : e.closed = false) :
    after.closed = false := by
  obtain ⟨actions, events, hrun, hmoves⟩ := h
  refine hrun.closed_eq_false he fun hmem => ?_
  obtain ⟨now, m, heq⟩ := hmoves _ hmem
  cases heq

theorem Plays.registry {e after : Engine} (h : Plays e after) : after.registry = e.registry := by
  obtain ⟨actions, events, hrun, -⟩ := h
  exact hrun.registry

end Engine

/-- No executor waits for a release before it replies. -/
def Registry.IsPrompt (r : Registry) : Prop :=
  ∀ name executor, r.get? name = some executor → ∀ n v, (executor.call n v).awaits = none

namespace Scheduler

open Engine (Plays Raises)

variable {s after : Scheduler} {id : String}

/-- All moves that are planned, as far as they can be foreseen. -/
def plans (s : Scheduler) : List Engine.Move :=
  s.ready.filterMap (fun | .move m => some m | .cancelAll => none) ++ s.timers.map Timer.move ++
    s.answers.map fun a => .chain a.id a.address (.reply (.ok .null))

theorem plans_soon (s : Scheduler) (m : Engine.Move) : (s.soon m).plans.Perm (m :: s.plans) := by
  simp only [plans, soon, List.filterMap_append, List.append_assoc]
  exact List.perm_middle

theorem insertTimer_perm (t : Timer) (timers : List Timer) :
    (insertTimer t timers).Perm (t :: timers) := by
  induction timers with
  | nil => exact .refl _
  | cons u rest ih =>
    rw [insertTimer]
    split_ifs
    · exact .refl _
    · exact (ih.cons u).trans (.swap t u rest)

theorem plans_later (s : Scheduler) (due : Nat) (m : Engine.Move) :
    (s.later due m).plans.Perm (m :: s.plans) := by
  have htimers := (insertTimer_perm ⟨due, m⟩ s.timers).map Timer.move
  refine ((htimers.append_left _).append_right _).trans ?_
  rw [plans, List.append_assoc, List.append_assoc]
  exact List.perm_middle

/-- There is no other execution, the engine is open and has a store, calls are made as soon as they
come up, and whatever else comes up concerns an execution. -/
structure Calm (s : Scheduler) (id : String) : Prop where
  queued : s.queued = []
  held : s.held = []
  staffed : 0 < s.workers
  prompt : s.engine.registry.IsPrompt
  takes : s.engine.takes = true
  unclosed : s.engine.closed = false
  alone : ∀ other, other ≠ id → s.engine.execution? other = none
  ready : ∀ j ∈ s.ready, ∃ m, j = .move m ∧ m.subject?.isSome = true
  timers : ∀ t ∈ s.timers, t.move.subject?.isSome = true

theorem Calm.of_same (h : s.Calm id) (hengine : after.engine = s.engine)
    (hqueued : after.queued = s.queued) (hheld : after.held = s.held)
    (hworkers : after.workers = s.workers) (hready : after.ready = s.ready)
    (htimers : after.timers = s.timers) : after.Calm id where
  queued := hqueued.trans h.queued
  held := hheld.trans h.held
  staffed := hworkers ▸ h.staffed
  prompt := hengine ▸ h.prompt
  takes := hengine ▸ h.takes
  unclosed := hengine ▸ h.unclosed
  alone := hengine ▸ h.alone
  ready := hready ▸ h.ready
  timers := htimers ▸ h.timers

theorem Calm.soon (h : s.Calm id) {m : Engine.Move} (hm : m.subject?.isSome = true) :
    (s.soon m).Calm id where
  __ := h
  ready j hj := by
    rcases List.mem_append.1 hj with hj | hj
    · exact h.ready j hj
    · exact ⟨m, List.mem_singleton.1 hj, hm⟩

theorem Calm.next (h : s.Calm id) {m : Engine.Move} (hm : m.subject?.isSome = true) :
    (s.next m).Calm id where
  __ := h
  ready j hj := by
    rcases List.mem_cons.1 hj with rfl | hj
    · exact ⟨m, rfl, hm⟩
    · exact h.ready j hj

theorem Calm.later (h : s.Calm id) {m : Engine.Move} (hm : m.subject?.isSome = true) (due : Nat) :
    (s.later due m).Calm id where
  __ := h
  timers t ht := by
    rcases mem_insertTimer ht with rfl | ht
    · exact hm
    · exact h.timers t ht

/-- Nothing but moves is ready, and they are planned. -/
theorem Calm.exists_moves (h : s.Calm id) :
    ∃ moves : List Engine.Move, s.ready = moves.map .move ∧ moves.length ≤ s.plans.length := by
  refine ⟨s.ready.filterMap fun | .move m => some m | .cancelAll => none, ?_, ?_⟩
  · have hready := h.ready
    generalize s.ready = jobs at hready
    induction jobs with
    | nil => rfl
    | cons j rest ih =>
      obtain ⟨⟨m, rfl, -⟩, hrest⟩ := List.forall_mem_cons.1 hready
      exact congrArg (.move m :: ·) (ih hrest)
  · rw [plans, List.length_append, List.length_append]
    omega

theorem Calm.begins (h : s.Calm id) (address places : List Nat) :
    let after := places.foldl (fun s i => s.soon (.chain id (address ++ [i]) .begin)) s
    after.Calm id ∧ after.engine = s.engine ∧
      after.plans.Perm ((places.map fun i => .chain id (address ++ [i]) .begin) ++ s.plans) := by
  induction places generalizing s with
  | nil => exact ⟨h, rfl, .refl _⟩
  | cons i rest ih =>
    obtain ⟨hcalm, hengine, hplans⟩ := ih (h.soon (m := .chain id (address ++ [i]) .begin) rfl)
    refine ⟨hcalm, hengine, hplans.trans ?_⟩
    exact ((plans_soon s _).append_left _).trans List.perm_middle

/-- A move of the scheduler is one of its engine. -/
theorem moves_of_move {m : Engine.Move} (done : s.move m = some after) :
    ∃ events, Engine.Moves s.engine s.instant m after.engine events := by
  obtain ⟨e, events, history, hstep, rfl⟩ := move_eq done
  exact ⟨events, Engine.moves_of_step hstep⟩

theorem Calm.move (h : s.Calm id) {m : Engine.Move} (honest : s.engine.Honest m)
    (done : s.move m = some after) : after.Calm id ∧ after.plans = s.plans := by
  obtain ⟨e, events, history, hstep, rfl⟩ := move_eq done
  have hplays := Plays.move honest hstep
  refine ⟨⟨h.queued, h.held, h.staffed, ?_, hplays.takes.trans h.takes,
    hplays.closed_eq_false h.unclosed, fun other hne => hplays.absent (h.alone other hne),
    h.ready, h.timers⟩, rfl⟩
  rw [hplays.registry]
  exact h.prompt

/-- A call is made and, since it is answered at once, the reply is planned. -/
theorem Calm.perform (h : s.Calm id) (address : List Nat) {call : Call}
    (hknown : ∃ executor, s.engine.registry.get? call.executor = some executor) :
    (s.perform id address call).engine = s.engine ∧ (s.perform id address call).Calm id ∧
      (s.perform id address call).plans.Perm (.chain id address (.reply (.ok .null)) :: s.plans) := by
  obtain ⟨executor, hget⟩ := hknown
  let reply := executor.call ((s.counts.lookup call.executor).getD 0) call.input
  have hawaits : reply.awaits = none := h.prompt call.executor executor hget _ _
  have hperform : ∃ counts history, s.perform id address call =
      { s with answers := s.answers ++ [⟨id, address, reply.result⟩], counts := counts,
               history := history } := by
    refine ⟨Members.insert call.executor ((s.counts.lookup call.executor).getD 0 + 1) s.counts,
      .performed call.executor reply :: s.history, ?_⟩
    simp only [Scheduler.perform, hget]
    rw [show (executor.call _ call.input).awaits = none from hawaits]
    rfl
  obtain ⟨counts, history, hperform⟩ := hperform
  rw [hperform]
  refine ⟨rfl, h.of_same rfl rfl rfl rfl rfl rfl, ?_⟩
  simp only [plans, List.map_append, List.map_cons, List.map_nil, ← List.append_assoc]
  exact List.perm_append_singleton _ _

/-- Where a chain has a call to make and knows its executor, the call is made as soon as it is
submitted. -/
theorem Calm.submit (h : s.Calm id) {address : List Nat} {stop : Stop} {call : Call}
    (hchain : s.chainAt? id address = some (.working stop call false))
    (hknown : ∃ executor, s.engine.registry.get? call.executor = some executor) :
    ∃ called, s.move (.chain id address .call) = some called ∧
      (s.submit id address).engine = called.engine ∧ (s.submit id address).Calm id ∧
      (s.submit id address).plans.Perm (.chain id address (.reply (.ok .null)) :: s.plans) := by
  obtain ⟨x, c, hx, hphase, hat⟩ := chainAt?_eq_some_iff.1 hchain
  have hstep : (s.engine.step s.instant (.chain id address .call)).isSome = true := by
    rw [Engine.step_chain hx hphase, Chain.isSome_stepAt_iff]
    exact ⟨_, hat, rfl⟩
  obtain ⟨p, hstep⟩ := Option.isSome_iff_exists.1 hstep
  obtain ⟨called, hmove⟩ : ∃ called, s.move (.chain id address .call) = some called :=
    ⟨_, by rw [Scheduler.move, hstep]; rfl⟩
  have honest : s.engine.Honest (.chain id address .call) := fun _ _ _ _ => trivial
  obtain ⟨hcalm, hplans⟩ := h.move honest hmove
  have hregistry : called.engine.registry = s.engine.registry := by
    obtain ⟨e, events, history, hstep, rfl⟩ := move_eq hmove
    exact (Plays.move honest hstep).registry
  rw [← hregistry] at hknown
  obtain ⟨hengine, hperformed, hreply⟩ := hcalm.perform address hknown
  have hsubmit : s.submit id address = { called.perform id address call with queued := [] } := by
    rw [Scheduler.submit, h.queued, List.nil_append, employ,
      if_pos (by rw [h.held]; exact h.staffed), hchain, hmove]
    rfl
  rw [hsubmit]
  exact ⟨called, hmove, hengine, hperformed.of_same rfl hperformed.queued.symm rfl rfl rfl rfl,
    hplans ▸ hreply⟩

/-- Calls are made by free workers and planned nowhere. -/
def IsCall : Engine.Move → Prop
  | .chain _ _ .call => True
  | _ => False

/-- The move is planned, or it waits for the last record of the execution to be written. -/
inductive Provides (s : Scheduler) (id : String) (m : Engine.Move) : Prop
  | planned (planned : m ∈ s.plans) (call : ¬IsCall m)
  | writing (release : m = .release id) (written : s.engine.isWriting id = true)

/-- The execution has so many moves left at the most, and whatever it can do is provided for, unless
it is still due. -/
structure Attends (s : Scheduler) (id : String) (k : Nat) (due : Engine.Move → Prop) : Prop where
  calm : s.Calm id
  offered : ∃ x, s.engine.execution? id = some x ∧
    x.Left s.engine.registry.contains s.engine.registry.MayReply k ∧
    ∀ m, x.Offers id m → s.Provides id m ∨ due m

/-- Every move that the execution offers is planned, timed or waits for a reply. -/
abbrev Attended (s : Scheduler) (id : String) (k : Nat) : Prop := s.Attends id k fun _ => False

variable {k : Nat} {due : Engine.Move → Prop} {address : List Nat}

theorem Attends.plan (h : s.Attends id k due) (added : List Engine.Move) (hcalm : after.Calm id)
    (hengine : after.engine = s.engine) (hplans : after.plans.Perm (added ++ s.plans))
    (hdue : ∀ m, due m → m ∈ added ∧ ¬IsCall m) : after.Attended id k := by
  obtain ⟨x, hx, hleft, hoffers⟩ := h.offered
  refine ⟨hcalm, x, hengine ▸ hx, hengine ▸ hleft, fun m hm => .inl ?_⟩
  rcases hoffers m hm with (⟨hplanned, hcall⟩ | ⟨hrelease, hwritten⟩) | hm
  · exact .planned (hplans.mem_iff.2 (List.mem_append_right _ hplanned)) hcall
  · exact .writing hrelease (hengine ▸ hwritten)
  · exact .planned (hplans.mem_iff.2 (List.mem_append_left _ (hdue m hm).1)) (hdue m hm).2

/-- What is still to be done: turns that are planned, records on their way and moves that are left,
each of which may bring up more of them. -/
def load (s : Scheduler) (k : Nat) : Nat :=
  s.plans.length + 2 * s.engine.writing.length + 5 * (k * k)

theorem five_mul_sq_lt {j k : Nat} (h : j < k) : 5 * (j * j) + 10 * j + 5 ≤ 5 * (k * k) := by
  nlinarith

/-- A chain of the execution has just become what it is, and what that raises is due. -/
structure Moved (s : Scheduler) (id : String) (address : List Nat) (k : Nat) (next d : Chain) :
    Prop where
  attends : s.Attends id k (Raises id address next)
  running : ∃ y, s.engine.execution? id = some y ∧ y.phase = .running next
  stands : next.at? address = some d

theorem Moved.chainAt? {next d : Chain} (h : s.Moved id address k next d) :
    s.chainAt? id address = some d := by
  obtain ⟨y, hy, hphase⟩ := h.running
  exact chainAt?_eq_some_iff.2 ⟨y, next, hy, hphase, h.stands⟩

theorem Attends.move_chain (h : s.Attends id k due) {move : Chain.Move}
    (honest : s.engine.Honest (.chain id address move))
    (hdue : ∀ m, due m → m = .chain id address move.foreseen)
    (done : s.move (.chain id address move) = some after) :
    ∃ j < k, ∃ next d, after.Moved id address j next d ∧ after.plans = s.plans ∧
      after.engine.writing.length ≤ s.engine.writing.length + 2 ∧
      ∃ knows name c seen, Chain.move? knows name move c = some (d, seen) := by
  obtain ⟨x, hx, hleft, hoffers⟩ := h.offered
  obtain ⟨hcalm, hplans⟩ := h.calm.move honest done
  obtain ⟨events, hmoves⟩ := moves_of_move done
  obtain ⟨c, next, seen, y, hphase, made, hy, hnext, hoffered, hafter⟩ := hmoves.offers_of_chain hx
  obtain ⟨z, hz, j, hj, hleft⟩ := hmoves.left honest (decide_eq_true rfl) hx hleft
  obtain rfl := Option.some.inj (hz.symm.trans hy)
  have hsame := (hmoves.keeps honest "").registry
  obtain ⟨name, d₀, d, -, hmade, hreaches⟩ := Chain.reaches_of_stepAt made
  obtain ⟨shown, hmove, -⟩ := Chain.move?_of_step hmade
  refine ⟨j, hj, next, d, ⟨⟨hcalm, z, hy, hsame ▸ hleft, fun m hm => ?_⟩, ⟨z, hy, hnext⟩,
    hreaches.at?⟩, hplans, hmoves.length_writing, _, name, d₀, shown, hmove⟩
  rcases hafter m hm with ⟨hbefore, hne⟩ | hraised
  · rcases (hoffers m hbefore).resolve_right fun hm => hne (hdue m hm) with
      ⟨hplanned, hcall⟩ | ⟨rfl, -⟩
    · exact .inl (.planned (hplans ▸ hplanned) hcall)
    · cases hbefore with
      | release phase => cases hphase.symm.trans phase
  · exact .inr hraised

variable {next d : Chain}

/-- A chain that has moved is sure to come to something, and has fewer moves left than its
execution. -/
theorem Moved.sure (h : s.Moved id address k next d) :
    ∃ n < k, ∃ Q, Ensures s.engine.registry.contains s.engine.registry.MayReply n Q d := by
  obtain ⟨y, hy, hphase⟩ := h.running
  obtain ⟨x, hx, hleft, -⟩ := h.attends.offered
  obtain rfl := Option.some.inj (hx.symm.trans hy)
  cases hleft with
  | scheduled scheduled => cases hphase.symm.trans scheduled
  | ended outcome =>
    rw [Execution.outcome?_eq_none_of_running hphase] at outcome
    cases outcome
  | running running sure =>
    obtain rfl := Phase.running.inj (hphase.symm.trans running)
    obtain ⟨n, hn, Q, hsure⟩ := sure.at? h.stands
    exact ⟨n, Nat.lt_succ_of_le hn, Q, hsure⟩

/-- It is enough to plan the only move that is due. -/
theorem Moved.plan_move (h : s.Moved id address k next d) {m : Engine.Move}
    (hdue : ∀ m', Raises id address next m' → m' = m) (hcall : ¬IsCall m) (hcalm : after.Calm id)
    (hengine : after.engine = s.engine) (hplans : after.plans.Perm (m :: s.plans)) :
    ∃ j ≤ k, after.Attended id j ∧ after.load j ≤ s.load k + k := by
  refine ⟨k, le_rfl, h.attends.plan [m] hcalm hengine hplans fun m' hm => ?_, ?_⟩
  · rw [hdue m' hm]
    exact ⟨List.mem_singleton_self _, hcall⟩
  · obtain ⟨n, hn, -⟩ := h.sure
    rw [load, load, hengine, hplans.length_eq, List.length_cons]
    omega

/-- Where a chain goes on by itself, its own turn is all that has to be planned. -/
theorem Moved.plan_turn (h : s.Moved id address k next d) {turn : Chain.Move}
    (hd : d.turn? = some turn) (hcall : turn ≠ .call) (hcalm : after.Calm id)
    (hengine : after.engine = s.engine)
    (hplans : after.plans.Perm (.chain id address turn :: s.plans)) :
    ∃ j ≤ k, after.Attended id j ∧ after.load j ≤ s.load k + k := by
  have hcall' : ¬IsCall (.chain id address turn) := by
    cases turn with
    | call => exact absurd rfl hcall
    | _ => exact not_false
  exact h.plan_move (fun m hm => hm.eq_of_turn h.stands hd) hcall' hcalm hengine hplans

/-- A chain that has come to a task has its call made. -/
theorem Moved.submit {stop : Stop} {call : Call}
    (h : s.Moved id address k next (.working stop call false)) :
    ∃ j ≤ k, (s.submit id address).Attended id j ∧
      (s.submit id address).load j ≤ s.load k + k := by
  obtain ⟨n, hn, Q, hsure⟩ := h.sure
  have hknown : ∃ executor, s.engine.registry.get? call.executor = some executor := by
    cases hsure with
    | queued called =>
      cases called with
      | called replied taken =>
        obtain ⟨reply, executor, n, hget, -⟩ := replied
        exact ⟨executor, hget⟩
  obtain ⟨called, hmove, hengine, hcalm, hplans⟩ := h.attends.calm.submit h.chainAt? hknown
  have honest : s.engine.Honest (.chain id address .call) := fun _ _ _ _ => trivial
  obtain ⟨j, hj, next', d', hmoved, hsame, hwriting, -⟩ :=
    h.attends.move_chain honest (fun m hm => hm.eq_of_turn h.stands rfl) hmove
  obtain ⟨stop', call', -, hcalled⟩ := working_of_move hmove
  obtain rfl := Option.some.inj (hmoved.chainAt?.symm.trans hcalled)
  rw [← hsame] at hplans
  obtain ⟨i, hi, hattended, hload⟩ :=
    hmoved.plan_turn rfl Chain.Move.noConfusion hcalm hengine hplans
  refine ⟨i, hi.trans hj.le, hattended, hload.trans ?_⟩
  have hsquare := five_mul_sq_lt hj
  simp only [load, hsame]
  omega

/-- A chain that has forked has its branches begin, or is joined if it has none. -/
theorem Moved.fork {stop : Stop} {machines : List Machine} {doc : Document}
    (h : s.Moved id address k next (.forked stop (machines.map fun b => .created b doc))) :
    let after := s.arrange id address (.forked stop (machines.map fun b => .created b doc))
    ∃ j ≤ k, after.Attended id j ∧ after.load j ≤ s.load k + k := by
  intro after
  have hcalm := h.attends.calm
  cases machines with
  | nil =>
    exact h.plan_turn rfl Chain.Move.noConfusion (hcalm.soon rfl) rfl (plans_soon s _)
  | cons first rest =>
    obtain ⟨n, hn, Q, hsure⟩ := h.sure
    have hless := hsure.length_lt
    have hafter : after = (List.range (first :: rest).length).foldl
        (fun s i => s.soon (.chain id (address ++ [i]) .begin)) s := by
      simp only [after, arrange, List.map_cons, List.isEmpty_cons, Bool.false_eq_true, if_false,
        List.length_cons, List.length_map]
    obtain ⟨hcalm, hengine, hplans⟩ := hcalm.begins address (List.range (first :: rest).length)
    rw [← hafter] at hcalm hengine hplans
    refine ⟨k, le_rfl, h.attends.plan _ hcalm hengine hplans fun m hm => ?_, ?_⟩
    · obtain ⟨i, hi, rfl⟩ := hm.of_fork h.stands
      exact ⟨List.mem_map_of_mem (List.mem_range.2 hi), not_false⟩
    · rw [load, load, hengine, hplans.length_eq, List.length_append, List.length_map, List.length_range]
      omega

/-- Where a branch has ended, what is due is the join of the fork above, once all its branches have
ended. -/
theorem Moved.due_of_branch {i : Nat} {r : Except Failure Document}
    (h : s.Moved id (address ++ [i]) k next (.ended r)) {m : Engine.Move}
    (hm : Raises id (address ++ [i]) next m) :
    ∃ stop branches, s.chainAt? id address = some (.forked stop branches) ∧
      (branches.all fun c => c.result?.isSome) = true ∧ m = .chain id address .join := by
  obtain ⟨heq, -⟩ | ⟨above, j, stop, branches, heq, forks, hall, rfl⟩ := hm.of_ended h.stands
  · cases List.append_ne_nil_of_right_ne_nil _ (List.cons_ne_nil _ _) heq
  · obtain ⟨rfl, -⟩ := List.append_inj' heq rfl
    obtain ⟨y, hy, hphase⟩ := h.running
    exact ⟨stop, branches, chainAt?_eq_some_iff.2 ⟨y, next, hy, hphase, forks⟩, hall, rfl⟩

/-- The last branch to end has its fork joined. -/
theorem Moved.finish_branch {i : Nat} {r : Except Failure Document}
    (h : s.Moved id (address ++ [i]) k next (.ended r)) :
    let after := s.arrange id (address ++ [i]) (.ended r)
    ∃ j ≤ k, after.Attended id j ∧ after.load j ≤ s.load k + k := by
  have hcalm := h.attends.calm
  have hnothing (hnone : ∀ m, ¬Raises id (address ++ [i]) next m) :
      ∃ j ≤ k, s.Attended id j ∧ s.load j ≤ s.load k + k :=
    ⟨k, le_rfl, h.attends.plan [] hcalm rfl (.refl _) fun m hm => absurd hm (hnone m),
      Nat.le_add_right _ _⟩
  have hbelow : address ++ [i] ≠ [] := List.append_ne_nil_of_right_ne_nil _ (List.cons_ne_nil _ _)
  intro after
  simp only [after, arrange, List.dropLast_concat]
  split
  · rename_i stop branches hfork
    split_ifs with hall
    · refine h.plan_move (m := .chain id address .join) (fun m hm => ?_) not_false
        (hcalm.soon rfl) rfl (plans_soon s _)
      obtain ⟨_, _, -, -, rfl⟩ := h.due_of_branch hm
      rfl
    · refine hnothing fun m hm => hall ?_
      obtain ⟨stop', branches', hfork', hall', -⟩ := h.due_of_branch hm
      cases hfork.symm.trans hfork'
      exact hall'
  · rename_i hfork
    refine hnothing fun m hm => ?_
    obtain ⟨stop, branches, hfork', -⟩ := h.due_of_branch hm
    exact hfork stop branches hfork'

/-- A main chain that has ended has its execution settled. -/
theorem Moved.finish_main {r : Except Failure Document} (h : s.Moved id [] k next (.ended r)) :
    ∃ j ≤ k, (s.arrange id [] (.ended r)).Attended id j ∧
      (s.arrange id [] (.ended r)).load j ≤ s.load k + k := by
  refine h.plan_move (m := .settle id) (fun m hm => ?_) not_false
    (h.attends.calm.next rfl) rfl (.refl _)
  obtain ⟨-, rfl⟩ | ⟨above, i, _, _, heq, -⟩ := hm.of_ended h.stands
  · rfl
  · cases above <;> cases heq

/-- What comes up when a chain has moved is planned, and that is no more than the moves that are
left. -/
theorem Moved.arrange (h : s.Moved id address k next d) (hnew : d.IsNew) (hbegun : d.HasBegun) :
    ∃ j ≤ k, (s.arrange id address d).Attended id j ∧
      (s.arrange id address d).load j ≤ s.load k + k := by
  have hcalm := h.attends.calm
  cases d with
  | created m doc => exact absurd rfl (hbegun .begin rfl).1
  | ready m state doc =>
    exact h.plan_turn rfl Chain.Move.noConfusion (hcalm.next rfl) rfl (.refl _)
  | waiting stop seconds =>
    rw [Scheduler.arrange]
    split_ifs
    · exact h.plan_turn rfl Chain.Move.noConfusion (hcalm.soon rfl) rfl (plans_soon s _)
    · exact h.plan_turn rfl Chain.Move.noConfusion (hcalm.later rfl _) rfl (plans_later s _ _)
  | working stop call started =>
    cases started with
    | true => exact absurd rfl ((hbegun _ rfl).2 _)
    | false => exact h.submit
  | forked stop branches =>
    obtain hleaf | ⟨stop, machines, doc, heq⟩ := hnew
    · exact hleaf.elim
    · rw [heq] at h ⊢
      exact h.fork
  | ended r =>
    obtain rfl | ⟨above, i, rfl⟩ := List.eq_nil_or_concat' address
    · exact h.finish_main
    · exact h.finish_branch

/-- What is known of a move that is made: it was due, no call, and nothing else becomes due but what
it brings up. -/
def OnlyDue (m m' : Engine.Move) : Prop := m' = m.foreseen ∧ ¬IsCall m'

/-- Where an execution offers but one move, nothing else has to be provided for. -/
theorem Calm.attended (h : s.Calm id) {x : Execution} (hx : s.engine.execution? id = some x)
    (hleft : x.Left s.engine.registry.contains s.engine.registry.MayReply k) {m : Engine.Move}
    (hoffers : ∀ m', x.Offers id m' → m' = m) (hprovides : s.Provides id m) : s.Attended id k := by
  refine ⟨h, x, hx, hleft, fun m' hm => .inl ?_⟩
  rw [hoffers m' hm]
  exact hprovides

/-- An execution that has an outcome only has to be released, now or once its last record is
written. -/
theorem Calm.finish (h : after.Calm id) {y : Execution} {at_ : Instant} {o : Outcome}
    (hy : s.engine.execution? id = some y) (hphase : y.phase = .finishing at_ o)
    (hengine : after.engine = s.engine)
    (hplans : s.engine.isWriting id = true ∧ after.plans = s.plans ∨
      after.plans.Perm (.release id :: s.plans)) :
    after.Attended id 0 ∧ after.plans.length ≤ s.plans.length + 1 := by
  have hended : y.phase.end? = some (at_, o) := by rw [hphase]; rfl
  have hleft : y.Left after.engine.registry.contains after.engine.registry.MayReply 0 :=
    .ended (Execution.outcome?_of_end hended)
  have hattended (hprovides : after.Provides id (.release id)) : after.Attended id 0 :=
    h.attended (hengine ▸ hy) hleft (fun m hm => hm.eq_release hphase) hprovides
  rcases hplans with ⟨hwritten, hsame⟩ | hplanned
  · exact ⟨hattended (.writing rfl (hengine ▸ hwritten)), hsame ▸ Nat.le_succ _⟩
  · exact ⟨hattended (.planned (hplanned.mem_iff.2 List.mem_cons_self) not_false),
      hplanned.length_eq.le⟩

/-- An execution that has been taken up has to enter its first state, and expires at its
deadline. -/
theorem Calm.enter (h : s.Calm id) {y : Execution} {m : Machine} {name : String} {doc : Document}
    (hy : s.engine.execution? id = some y) (hphase : y.phase = .running (.ready m name doc))
    (hleft : y.Left s.engine.registry.contains s.engine.registry.MayReply k) :
    (s.arise (.begin id)).Attended id k ∧
      (s.arise (.begin id)).load k = s.load k + 2 := by
  let timed := if s.deadline y ≤ s.now then s.soon (.expire id)
    else s.later (s.deadline y) (.expire id)
  have harise : s.arise (.begin id) = timed.next (.chain id [] .enter) := by
    simp only [arise, hy, timed]
  have htimed : timed.engine = s.engine ∧ timed.Calm id ∧
      timed.plans.Perm (.expire id :: s.plans) := by
    simp only [timed]
    split_ifs
    · exact ⟨rfl, h.soon rfl, plans_soon _ _⟩
    · exact ⟨rfl, h.later rfl _, plans_later _ _ _⟩
  obtain ⟨hengine, hcalm, hexpire⟩ := htimed
  have hplans : (timed.next (.chain id [] .enter)).plans.Perm
      (.chain id [] .enter :: .expire id :: s.plans) := hexpire.cons _
  rw [harise]
  refine ⟨(hcalm.next rfl).attended ?_ ?_ (fun m' hm => hm.eq_enter hphase)
    (.planned (hplans.mem_iff.2 List.mem_cons_self) not_false), ?_⟩
  · exact (congrArg (Engine.execution? · id) hengine).trans hy
  · exact (congrArg Engine.registry hengine) ▸ hleft
  · rw [load, load, hplans.length_eq, List.length_cons, List.length_cons]
    have hwriting : (timed.next (.chain id [] .enter)).engine.writing = s.engine.writing :=
      congrArg Engine.writing hengine
    rw [hwriting]
    omega

theorem Attends.take_chain {address : List Nat} {move : Chain.Move}
    (h : s.Attends id k (OnlyDue (.chain id address move)))
    (honest : s.engine.Honest (.chain id address move)) (hcall : move ≠ .call)
    (done : s.move (.chain id address move) = some after) :
    ∃ j, (after.arise (.chain id address move)).Attended id j ∧
      (after.arise (.chain id address move)).load j ≤ s.load k := by
  obtain ⟨j, hj, next, d, hmoved, hplans, hwriting, knows, name, c, seen, hmove⟩ :=
    h.move_chain honest (fun m hm => hm.1) done
  obtain ⟨i, hi, hattended, hload⟩ := hmoved.arrange (Chain.isNew_of_move? hmove)
    (Chain.hasBegun_of_move? hmove hcall)
  have harise : after.arise (.chain id address move) = after.arrange id address d := by
    simp only [arise, hmoved.chainAt?]
  rw [harise]
  refine ⟨i, hattended, hload.trans ?_⟩
  have hsquare := five_mul_sq_lt hj
  simp only [load, hplans]
  omega

/-- An execution that is taken up has its main chain enter the first state, and a deadline. -/
theorem Attends.take_begin (h : s.Attends id k due) (done : s.move (.begin id) = some after) :
    ∃ j, (after.arise (.begin id)).Attended id j ∧ (after.arise (.begin id)).load j ≤ s.load k := by
  have honest : s.engine.Honest (.begin id) := trivial
  obtain ⟨x, hx, hleft, hoffers⟩ := h.offered
  obtain ⟨hcalm, hplans⟩ := h.calm.move honest done
  obtain ⟨events, hmoves⟩ := moves_of_move done
  obtain ⟨y, hy, j, hj, hleft⟩ := hmoves.left honest (decide_eq_true rfl) hx hleft
  obtain ⟨hsame, hwriting, hphase⟩ : after.engine.registry = s.engine.registry ∧
      after.engine.writing = s.engine.writing ∧
      y.phase = .running (.ready x.machine x.machine.start x.input) := by
    generalize after.engine = e at hmoves hy
    cases hmoves with
    | begin found phase =>
      obtain rfl := Option.some.inj (hx.symm.trans found)
      obtain rfl := Option.some.inj (hy.symm.trans (Engine.execution?_put_self _ _ _))
      exact ⟨rfl, rfl, rfl⟩
  rw [← hsame] at hleft
  obtain ⟨hattended, hload⟩ := hcalm.enter hy hphase hleft
  refine ⟨j, hattended, ?_⟩
  have hsquare := five_mul_sq_lt hj
  rw [hload, load, load, hplans, hwriting]
  omega

/-- A move after which an execution has an outcome leaves it to be released. -/
theorem Attends.take_last (h : s.Attends id k due) {m : Engine.Move} (honest : s.engine.Honest m)
    (done : s.move m = some after) (hm : m = .settle id ∨ m = .expire id) :
    ∃ j, (after.arise m).Attended id j ∧ (after.arise m).load j ≤ s.load k := by
  obtain ⟨x, hx, hleft, hoffers⟩ := h.offered
  obtain ⟨hcalm, hplans⟩ := h.calm.move honest done
  obtain ⟨events, hmoves⟩ := moves_of_move done
  have hwriting := hmoves.length_writing
  have hended : (∃ c, x.phase = .running c) ∧ ∃ y at_ o, after.engine.execution? id = some y ∧
      y.phase = .finishing at_ o := by
    have hsettled {o : Outcome} {left : List Chain.Event} {crash : Option Fault}
        (settled : s.engine.settle s.instant id x o left crash = (after.engine, events)) :
        ∃ y at_ o, after.engine.execution? id = some y ∧ y.phase = .finishing at_ o := by
      have hy := Engine.execution?_settle s.engine s.instant id x o left crash id
      rw [settled, Engine.execution?_put_self] at hy
      exact ⟨_, _, _, hy, rfl⟩
    rcases hm with rfl | rfl
    · cases hmoves with
      | settle found phase told settled =>
        obtain rfl := Option.some.inj (hx.symm.trans found)
        exact ⟨⟨_, phase⟩, hsettled settled⟩
    · cases hmoves with
      | expire found phase unended suspended settled =>
        obtain rfl := Option.some.inj (hx.symm.trans found)
        exact ⟨⟨_, phase⟩, hsettled settled⟩
  obtain ⟨⟨c, hphase⟩, y, at_, o, hy, hend⟩ := hended
  have harise : (after.arise m).Calm id ∧ (after.arise m).engine = after.engine ∧
      (after.engine.isWriting id = true ∧ (after.arise m).plans = after.plans ∨
        (after.arise m).plans.Perm (.release id :: after.plans)) := by
    rcases hm with rfl | rfl <;> rw [arise] <;> split_ifs with hwritten
    · exact ⟨hcalm, rfl, .inl ⟨hwritten, rfl⟩⟩
    · exact ⟨hcalm.next rfl, rfl, .inr (.refl _)⟩
    · exact ⟨hcalm, rfl, .inl ⟨hwritten, rfl⟩⟩
    · exact ⟨hcalm.soon rfl, rfl, .inr (plans_soon _ _)⟩
  obtain ⟨hfinal, hengine, hrelease⟩ := harise
  obtain ⟨hattended, hlength⟩ := hfinal.finish hy hend hengine hrelease
  refine ⟨0, hattended, ?_⟩
  have hsquare := five_mul_sq_lt (hleft.pos hphase)
  rw [load, load, hengine]
  rw [hplans] at hlength
  omega

theorem Attends.take_release (h : s.Attends id k due) (done : s.move (.release id) = some after) :
    after.Attended id 0 ∧ after.load 0 ≤ s.load k := by
  have honest : s.engine.Honest (.release id) := trivial
  obtain ⟨hcalm, hplans⟩ := h.calm.move honest done
  obtain ⟨events, hmoves⟩ := moves_of_move done
  obtain ⟨hwriting, y, at_, o, hy, hphase⟩ : after.engine.writing = s.engine.writing ∧
      ∃ y at_ o, after.engine.execution? id = some y ∧ y.phase = .done at_ o := by
    generalize after.engine = e at hmoves
    cases hmoves with
    | release => exact ⟨rfl, _, _, _, Engine.execution?_put_self _ _ _, rfl⟩
  have hended : y.phase.end? = some (at_, o) := by rw [hphase]; rfl
  refine ⟨⟨hcalm, y, hy, .ended (Execution.outcome?_of_end hended), fun m hm => ?_⟩, ?_⟩
  · cases hm with
    | begin phase => cases hphase.symm.trans phase
    | chain phase => cases hphase.symm.trans phase
    | settle phase => cases hphase.symm.trans phase
    | release phase => cases hphase.symm.trans phase
  · rw [load, load, hplans, hwriting]
    omega

/-- Where there is one execution and the engine is open, only moves of that one can be made, besides
writing. -/
theorem Calm.cases_move (h : s.Calm id) {m : Engine.Move} (done : s.move m = some after)
    (hm : m.subject?.isSome = true) :
    m = .begin id ∨ (∃ address move, m = .chain id address move) ∨
      (m = .settle id ∨ m = .expire id) ∨ m = .release id := by
  have hself {other : String} {x : Execution} (found : s.engine.execution? other = some x) :
      other = id := by
    by_contra hne
    cases (h.alone other hne).symm.trans found
  obtain ⟨events, hmoves⟩ := moves_of_move done
  generalize after.engine = e at hmoves
  cases hmoves with
  | begin found => exact .inl (by rw [hself found])
  | chain found => exact .inr (.inl ⟨_, _, by rw [hself found]⟩)
  | settle found => exact .inr (.inr (.inl (.inl (by rw [hself found]))))
  | expire found => exact .inr (.inr (.inl (.inr (by rw [hself found]))))
  | cancel found phase closed => cases h.unclosed.symm.trans closed
  | withdraw found phase closed => cases h.unclosed.symm.trans closed
  | write => cases hm
  | release found => exact .inr (.inr (.inr (by rw [hself found])))

/-- A turn that is taken is made up for by what is planned then, and takes more moves away than it
brings up, unless nothing comes of it. -/
theorem Attends.take {m : Engine.Move} (h : s.Attends id k (OnlyDue m)) (honest : s.engine.Honest m)
    (hm : m.subject?.isSome = true) :
    ∃ j, (s.take m).Attended id j ∧ (s.take m).load j ≤ s.load k := by
  unfold Scheduler.take
  split
  · rename_i after done
    obtain rfl | ⟨address, move, rfl⟩ | hlast | rfl := h.calm.cases_move done hm
    · exact h.take_begin done
    · refine h.take_chain honest ?_ done
      rintro rfl
      obtain ⟨x, hx, -, hoffers⟩ := h.offered
      obtain ⟨events, hmoves⟩ := moves_of_move done
      obtain ⟨-, -, -, -, -, -, -, -, hoffered, -⟩ := hmoves.offers_of_chain hx
      rcases hoffers _ hoffered with (⟨-, hcall⟩ | ⟨heq, -⟩) | ⟨-, hcall⟩
      · exact hcall trivial
      · cases heq
      · exact hcall trivial
    · exact h.take_last honest done hlast
    · exact ⟨0, h.take_release done⟩
  · rename_i hnone
    obtain ⟨x, hx, hleft, hoffers⟩ := h.offered
    refine ⟨k, ⟨h.calm, x, hx, hleft, fun m' hm' => .inl ?_⟩, le_rfl⟩
    rcases hoffers m' hm' with hprovides | ⟨rfl, -⟩
    · exact hprovides
    -- What was due has not come about: its execution is done once its last record is written.
    · by_cases hwait : m = .release id ∧ s.engine.isWriting id = true
      · obtain ⟨rfl, hwritten⟩ := hwait
        exact .writing rfl hwritten
      · have hgone : m = .release id → s.engine.isWriting id = false := fun hm =>
          Bool.eq_false_iff.2 fun hwritten => hwait ⟨hm, hwritten⟩
        have hstep := Engine.isSome_step_of_offers hx hgone hm' s.instant
        obtain ⟨p, hstep⟩ := Option.isSome_iff_exists.1 hstep
        rw [Scheduler.move, hstep] at hnone
        cases hnone

end Scheduler

end ReminderFlow
