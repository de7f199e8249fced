import ReminderFlow.Proofs.Engine.Goes
import ReminderFlow.Proofs.Run.Ensures

namespace ReminderFlow

open Chain (Ensures Replies)

/-- The actions by which an execution goes on by itself, until it has an outcome. -/
def Engine.Action.advances (id : String) : Action → Bool
  | move _ (.begin other) => other = id
  | move _ (.chain other _ _) => other = id
  | move _ (.settle other) => other = id
  | _ => false

/-- How many such actions are left to an execution at the most: it is taken up, its chains move and
it is settled. -/
inductive Execution.Left (knows : String → Bool) (replies : Replies) (x : Execution) : Nat → Prop
  | scheduled {n : Nat} {Q : Chain.Post} (phase : x.phase = .scheduled)
      (sure : Ensures knows replies n Q (.ready x.machine x.machine.start x.input)) :
      x.Left knows replies (n + 2)
  | running {n : Nat} {Q : Chain.Post} {c : Chain} (phase : x.phase = .running c)
      (sure : Ensures knows replies n Q c) : x.Left knows replies (n + 1)
  | ended {o : Outcome} (outcome : x.outcome? = some o) : x.Left knows replies 0

namespace Engine

open Relation (ReflTransGen)

/-- The machine and the input of an execution stay. -/
theorem Happens.same {e after : Engine} {a : Action} {events : List Event} {id : String}
    {x y : Execution} (h : Happens e a after events) (hx : e.execution? id = some x)
    (hy : after.execution? id = some y) : y.machine = x.machine ∧ y.input = x.input := by
  obtain ⟨z, hz, hchanges | hmoved⟩ := h.becomes hx
  · obtain rfl := Option.some.inj (hy.symm.trans hz)
    clear hy hz
    induction hchanges with
    | refl => exact ⟨rfl, rfl⟩
    | tail _ hchange ih => cases hchange <;> exact ih
  · obtain rfl := Option.some.inj (hy.symm.trans hz)
    obtain ⟨-, -, -, -, -, -, -, -, -, states, rfl⟩ := hmoved.here
    exact ⟨rfl, rfl⟩

theorem Change.left {knows : String → Bool} {replies : Replies} {x y : Execution}
    (h : Change x y) {n : Nat} (hleft : x.Left knows replies n) :
    ∃ k ≤ n, y.Left knows replies k := by
  cases h with
  | begin phase =>
    cases hleft with
    | @scheduled n Q _ sure => exact ⟨n + 1, by omega, .running rfl sure⟩
    | running running => simp [phase] at running
    | ended outcome => simp [Execution.outcome?, phase, Phase.end?] at outcome
  | settle now phase => exact ⟨0, Nat.zero_le n, .ended rfl⟩
  | cut now phase how => exact ⟨0, Nat.zero_le n, .ended rfl⟩
  | release phase => exact ⟨0, Nat.zero_le n, .ended rfl⟩
  | callback c unended =>
    refine ⟨n, le_refl n, ?_⟩
    cases hleft with
    | scheduled phase sure => exact .scheduled phase sure
    | running phase sure => exact .running phase sure
    | ended outcome => exact .ended outcome

theorem left_of_changes {knows : String → Bool} {replies : Replies} {x y : Execution}
    (h : ReflTransGen Change x y) {n : Nat} (hleft : x.Left knows replies n) :
    ∃ k ≤ n, y.Left knows replies k := by
  induction h with
  | refl => exact ⟨n, le_refl n, hleft⟩
  | tail _ hchange ih =>
    obtain ⟨k, hk, hz⟩ := ih
    obtain ⟨l, hl, hy⟩ := hchange.left hz
    exact ⟨l, hl.trans hk, hy⟩

/-- An action by which the execution goes on takes away one of those that are left. -/
theorem Moves.left {e after : Engine} {now : Instant} {move : Move} {events : List Event}
    {id : String} {x : Execution} (h : Moves e now move after events) (honest : e.Honest move)
    (hadvances : (Action.move now move).advances id = true) (hx : e.execution? id = some x) {n : Nat}
    (hleft : x.Left e.registry.contains e.registry.MayReply n) :
    ∃ y, after.execution? id = some y ∧
      ∃ k < n, y.Left e.registry.contains e.registry.MayReply k := by
  cases h with
  | @begin other y found phase =>
    obtain rfl := of_decide_eq_true hadvances
    obtain rfl := Option.some.inj (hx.symm.trans found)
    refine ⟨_, e.execution?_put_self _ _, ?_⟩
    cases hleft with
    | @scheduled n Q _ sure => exact ⟨n + 1, Nat.lt_succ_self _, .running rfl sure⟩
    | running running => simp [phase] at running
    | ended outcome => simp [Execution.outcome?, phase, Phase.end?] at outcome
  | @chain other address move z y c next seen d _ found phase made followed =>
    obtain rfl := of_decide_eq_true hadvances
    obtain rfl := Option.some.inj (hx.symm.trans found)
    obtain ⟨-, -, ⟨states, hstates⟩, -⟩ :=
      e.follow_spec now other { x with phase := .running next } seen
    rw [followed] at hstates
    obtain rfl : y = { x with phase := .running next, states := states } := hstates
    refine ⟨_, d.execution?_put_self _ _, ?_⟩
    cases hleft with
    | scheduled scheduled => simp [phase] at scheduled
    | @running n Q _ running sure =>
      obtain rfl := Phase.running.inj (phase.symm.trans running)
      obtain ⟨k, hk, hnext⟩ := sure.stepAt (honest x c hx phase) made
      exact ⟨k + 1, Nat.succ_lt_succ hk, .running rfl hnext⟩
    | ended outcome => simp [Execution.outcome?, phase, Phase.end?] at outcome
  | @settle other z r _ outcome _ found phase told settled =>
    obtain rfl := of_decide_eq_true hadvances
    obtain rfl := Option.some.inj (hx.symm.trans found)
    have hy := e.execution?_settle now other x outcome [] (crash? r) other
    rw [settled, execution?_put_self] at hy
    refine ⟨_, hy, ?_⟩
    cases hleft with
    | scheduled scheduled => simp [phase] at scheduled
    | running running sure => exact ⟨0, Nat.succ_pos _, .ended rfl⟩
    | ended outcome => simp [Execution.outcome?, phase, Phase.end?] at outcome
  | expire => cases hadvances
  | cancel => cases hadvances
  | withdraw => cases hadvances
  | write => cases hadvances
  | release => cases hadvances

theorem Happens.left {e after : Engine} {a : Action} {events : List Event} {id : String}
    {x y : Execution} (h : Happens e a after events) (hx : e.execution? id = some x)
    (hy : after.execution? id = some y) {n : Nat}
    (hleft : x.Left e.registry.contains e.registry.MayReply n) :
    ∃ k, k + (if a.advances id then 1 else 0) ≤ n ∧
      y.Left e.registry.contains e.registry.MayReply k := by
  by_cases hadvances : a.advances id = true
  · rw [if_pos hadvances]
    cases h with
    | moved honest done =>
      obtain ⟨z, hz, k, hk, hleft⟩ := (moves_of_step done).left honest hadvances hx hleft
      obtain rfl := Option.some.inj (hy.symm.trans hz)
      exact ⟨k, hk, hleft⟩
    | _ => cases hadvances
  · rw [if_neg hadvances]
    obtain ⟨z, hz, hchanges | hmoved⟩ := h.becomes hx
    · obtain rfl := Option.some.inj (hy.symm.trans hz)
      exact left_of_changes hchanges hleft
    · obtain ⟨now, address, move, c, next, seen, rfl, -⟩ := hmoved.here
      simp [Action.advances] at hadvances

/-- An execution goes on only when it is there. -/
theorem Happens.not_advances {e after : Engine} {a : Action} {events : List Event} {id : String}
    (h : Happens e a after events) (hnone : e.execution? id = none) : a.advances id = false := by
  cases hadvances : a.advances id with
  | false => rfl
  | true =>
    cases h with
    | moved honest done =>
      cases moves_of_step done with
      | begin found phase =>
        obtain rfl := of_decide_eq_true hadvances
        rw [hnone] at found
        cases found
      | chain found phase =>
        obtain rfl := of_decide_eq_true hadvances
        rw [hnone] at found
        cases found
      | settle found phase =>
        obtain rfl := of_decide_eq_true hadvances
        rw [hnone] at found
        cases found
      | _ => cases hadvances
    | _ => cases hadvances

/-- The actions by which the execution has gone on, and those that are left. -/
theorem Run.left {first e : Engine} {actions : List Action} {events : List Event} {id : String}
    (hrun : Run first actions e events) (hfirst : first.execution? id = none) :
    (e.execution? id = none → actions.countP (Action.advances id) = 0) ∧
    ∀ x n Q, e.execution? id = some x → Ensures first.registry.contains first.registry.MayReply n Q
      (.ready x.machine x.machine.start x.input) →
      ∃ k, actions.countP (Action.advances id) + k ≤ n + 2 ∧
        x.Left first.registry.contains first.registry.MayReply k := by
  induction hrun with
  | rest =>
    refine ⟨fun _ => rfl, fun x n Q hx => ?_⟩
    rw [hfirst] at hx
    cases hx
  | @next actions a e after events more before happens ih =>
    obtain ⟨habsent, hpresent⟩ := ih
    rw [List.countP_append, List.countP_singleton]
    cases hx : e.execution? id with
    | none =>
      rw [habsent hx, happens.not_advances hx]
      refine ⟨fun _ => rfl, fun y n Q hy hsure => ?_⟩
      obtain ⟨m, input, limit, doc, now, deadline, -, -, -, rfl⟩ := happens.starts hx hy
      exact ⟨n + 2, by simp, .scheduled rfl hsure⟩
    | some x =>
      refine ⟨fun hnone => ?_, fun y n Q hy hsure => ?_⟩
      · obtain ⟨y, hy, -⟩ := happens.becomes hx
        rw [hnone] at hy
        cases hy
      · obtain ⟨hmachine, hinput⟩ := happens.same hx hy
        rw [hmachine, hinput] at hsure
        obtain ⟨k, hk, hleft⟩ := hpresent x n Q hx hsure
        rw [← before.registry] at hleft
        obtain ⟨l, hl, hlater⟩ := happens.left hx hy hleft
        rw [before.registry] at hlater
        exact ⟨l, by omega, hlater⟩

/-- As long as there is no outcome there is an action by which the execution goes on, unless its
main chain has ended with what no outcome can tell. -/
theorem goes_on_of_left {e : Engine} {id : String} {x : Execution} (hx : e.execution? id = some x)
    {n : Nat} (hleft : x.Left e.registry.contains e.registry.MayReply n) (ho : x.outcome? = none)
    (now : Instant) :
    (∃ r, x.phase = .running (.ended r) ∧ Outcome.ofResult? x.deadline r = none) ∨
    ∃ move after more, (Action.move now move).advances id = true ∧
      Happens e (.move now move) after more := by
  have hself : decide (id = id) = true := decide_eq_true rfl
  cases hleft with
  | scheduled phase sure =>
    have hstep : (e.step now (.begin id)).isSome = true := by simp [step, hx, phase]
    obtain ⟨⟨after, more⟩, hstep⟩ := Option.isSome_iff_exists.1 hstep
    exact .inr ⟨.begin id, after, more, hself, .moved trivial hstep⟩
  | @running n Q c phase sure =>
    cases hc : c.result? with
    | some r =>
      have hended : c = .ended r := by
        cases c <;> simp_all [Chain.result?]
      subst hended
      cases htold : Outcome.ofResult? x.deadline r with
      | none => exact .inl ⟨r, phase, htold⟩
      | some outcome =>
        have hstep : (e.step now (.settle id)).isSome = true := by simp [step, hx, phase, htold]
        obtain ⟨⟨after, more⟩, hstep⟩ := Option.isSome_iff_exists.1 hstep
        exact .inr ⟨.settle id, after, more, hself, .moved trivial hstep⟩
    | none =>
      obtain ⟨address, move, next, events, honest, made⟩ := sure.goes_on hc ""
      have hstep := step_chain hx phase now address move
      rw [made] at hstep
      obtain ⟨⟨after, more⟩, hstep⟩ := Option.isSome_iff_exists.1 hstep
      refine .inr ⟨.chain id address move, after, more, hself, .moved ?_ hstep⟩
      intro y d hy hd
      obtain rfl := Option.some.inj (hx.symm.trans hy)
      obtain rfl := Phase.running.inj (phase.symm.trans hd)
      exact honest
  | ended outcome =>
    rw [ho] at outcome
    cases outcome

/-- An execution that is not cut off, and whose chain is sure to come to something within so many
moves, goes on no more than twice oftener. It can go on until its chain has come to that, and then
its outcome, if there can be one, tells of it. -/
theorem Run.ensured {first e : Engine} {actions : List Action} {events : List Event} {id : String}
    (hrun : Run first actions e events) (hfirst : first.execution? id = none)
    (huncut : ∀ a ∈ actions, ¬a.Cuts id) {x : Execution} (hx : e.execution? id = some x) {n : Nat}
    {Q : Chain.Post} (hsure : Ensures first.registry.contains first.registry.MayReply n Q
      (.ready x.machine x.machine.start x.input)) :
    actions.countP (Action.advances id) ≤ n + 2 ∧
      ((x.outcome? = none ∧ ∀ now, ∃ move after more, (Action.move now move).advances id = true ∧
          Happens e (.move now move) after more) ∨
        ∃ r, x.outcome? = Outcome.ofResult? x.deadline r ∧
          Q (Chain.calls (chainEvents id events)) r) := by
  obtain ⟨k, hk, hleft⟩ := (hrun.left hfirst).2 x n Q hx hsure
  refine ⟨by omega, ?_⟩
  obtain ⟨hregistry, told⟩ := hrun.told hfirst
  rw [← hregistry] at hleft
  have hcomes {r : Except Failure Document}
      (course : x.Runs first.registry (chainEvents id events) (.ended r)) :
      Q (Chain.calls (chainEvents id events)) r := by
    obtain ⟨l, -, hended⟩ := hsure.course course
    have hholds := hended.holds
    rwa [Chain.Post.after, add_zero] at hholds
  cases told.story x hx with
  | scheduled phase =>
    have ho : x.outcome? = none := by rw [Execution.outcome?, phase]; rfl
    refine .inl ⟨ho, fun now => (goes_on_of_left hx hleft ho now).resolve_left ?_⟩
    rintro ⟨r, hphase, -⟩
    rw [phase] at hphase
    cases hphase
  | @running c phase course =>
    have ho := Execution.outcome?_eq_none_of_running phase
    by_cases hstuck : ∃ r, x.phase = .running (.ended r) ∧ Outcome.ofResult? x.deadline r = none
    · obtain ⟨r, hphase, htold⟩ := hstuck
      obtain rfl := Phase.running.inj (phase.symm.trans hphase)
      exact .inr ⟨r, ho.trans htold.symm, hcomes course⟩
    · exact .inl ⟨ho, fun now => (goes_on_of_left hx hleft ho now).resolve_left hstuck⟩
  | @settled at_ outcome r ending told course =>
    exact .inr ⟨r, (Execution.outcome?_of_end ending).trans told.symm, hcomes course⟩
  | cut ending allowed =>
    obtain ⟨a, ha, hcuts⟩ := allowed
    exact absurd hcuts (huncut a ha)

end Engine

end ReminderFlow
