import ReminderFlow.Engine.Scheduler
import ReminderFlow.Proofs.Engine.Goes
import ReminderFlow.Proofs.Engine.Limit
import ReminderFlow.Proofs.Engine.Logging
import ReminderFlow.Proofs.Engine.Schedule
import ReminderFlow.Proofs.Engine.Settled

namespace ReminderFlow

namespace Chain

/-- A tree may be interrupted if and only if no chain in it is about to enter a state. -/
theorem isSuspended_iff : (c : Chain) →
    (c.isSuspended = true ↔ ∀ address d, c.at? address = some d → d.isReady = false)
  | forked stop branches => by
    rw [isSuspended, allSuspended_iff]
    constructor
    · rintro h (_ | ⟨i, rest⟩) d hd
      · cases hd
        rfl
      · obtain ⟨child, hchild, hat⟩ := Option.bind_eq_some_iff.1 hd
        have hmem := List.mem_of_getElem? hchild
        exact (isSuspended_iff child).1 (h child hmem) rest d hat
    · intro h child hmem
      rw [isSuspended_iff child]
      intro rest d hat
      obtain ⟨i, hi⟩ := List.getElem?_of_mem hmem
      apply h (i :: rest) d
      rw [at?, hi]
      exact hat
  | ready m name doc => by
    constructor
    · intro h
      cases h
    · intro h
      cases h [] _ rfl
  | created m doc | waiting stop seconds | working stop call started | ended r => by
    refine ⟨fun _ address d hd => ?_, fun _ => rfl⟩
    cases address with
    | nil =>
      cases hd
      rfl
    | cons => cases hd
termination_by c => sizeOf c
decreasing_by
  all_goals
    have := List.sizeOf_lt_of_mem hmem
    simp
    omega

end Chain

namespace Engine

open Relation (ReflTransGen)

/-- No chain of an execution that has an outcome can be moved, whatever it is to be told. -/
theorem step_chain_of_outcome {e : Engine} {id : String} {x : Execution} {o : Outcome}
    (hx : e.execution? id = some x) (ho : x.outcome? = some o) (now : Instant) (address : List Nat)
    (move : Chain.Move) : e.step now (.chain id address move) = none := by
  cases hstep : e.step now (.chain id address move) with
  | none => rfl
  | some next =>
    obtain ⟨after, events⟩ := next
    cases moves_of_step hstep with
    | chain found phase =>
      obtain rfl := Option.some.inj (hx.symm.trans found)
      rw [Execution.outcome?_eq_none_of_running phase] at ho
      cases ho

theorem take_of_outcome {s : Scheduler} {id : String} {x : Execution} {o : Outcome}
    (hx : s.engine.execution? id = some x) (ho : x.outcome? = some o) (address : List Nat)
    (move : Chain.Move) : s.take (.chain id address move) = s := by
  rw [Scheduler.take, Scheduler.move, step_chain_of_outcome hx ho]
  rfl

/-- The outcome is that of the main chain, or the execution has been cut off. -/
inductive Ends (id : String) (x : Execution) (o : Outcome) (more : List Event) : Action → Prop where
  | settled {now : Instant} {r : Except Failure Document} (phase : x.phase = .running (.ended r))
      (told : Outcome.ofResult? x.deadline r = some o) : Ends id x o more (.move now (.settle id))
  | expired {now : Instant} {c : Chain} (phase : x.phase = .running c) (unended : c.result? = none)
      (suspended : c.isSuspended = true) (outcome : o = .timedOut x.deadline)
      (left : chainEvents id more = c.abandon "") : Ends id x o more (.move now (.expire id))
  | cancelled {now : Instant} {c : Chain} (phase : x.phase = .running c) (unended : c.result? = none)
      (suspended : c.isSuspended = true) (outcome : o = .cancelled) :
      Ends id x o more (.move now (.cancel id))

/-- An execution that is settled has the outcome, and its chains show no more than what is left. -/
theorem ended_of_settle {e after : Engine} {now : Instant} {id : String} {x y : Execution}
    {o o' : Outcome} {left : List Chain.Event} {crash : Option Fault} {more : List Event}
    (settled : e.settle now id x o left crash = (after, more)) (hy : after.execution? id = some y)
    (ho : y.outcome? = some o') : o' = o ∧ chainEvents id more = left := by
  have hput := execution?_settle e now id x o left crash id
  obtain ⟨-, -, hseen⟩ := e.settle_spec now id x o left crash
  rw [settled] at hput hseen
  rw [execution?_put_self] at hput
  obtain rfl := Option.some.inj (hy.symm.trans hput)
  exact ⟨(Option.some.inj ho).symm, (hseen id).trans (chainEvents_chain_self id _)⟩

theorem Happens.ends {e after : Engine} {a : Action} {more : List Event} {id : String}
    {x y : Execution} {o : Outcome} (h : Happens e a after more) (hx : e.execution? id = some x)
    (hunended : x.outcome? = none) (hy : after.execution? id = some y) (ho : y.outcome? = some o) :
    Ends id x o more a := by
  have hnot (hsame : after.execution? id = e.execution? id) : False := by
    rw [hy, hx] at hsame
    rw [Option.some.inj hsame, hunended] at ho
    cases ho
  cases h with
  | @started now other machine input limit m doc deadline _ _ fresh prepared done =>
    have hne : id ≠ other := by
      rintro rfl
      rw [hx] at fresh
      cases fresh
    refine (hnot ?_).elim
    rw [execution?, (register_spec done).1]
    exact e.execution?_put_of_ne hne _
  | refused done => exact (hnot rfl).elim
  | @moved now move _ _ honest done =>
    have hmoves := moves_of_step done
    by_cases hsubject : move.subject? = some id
    case neg => exact (hnot (hmoves.execution?_of_ne hsubject)).elim
    cases hmoves with
    | begin found phase =>
      cases hsubject
      rw [execution?_put_self] at hy
      obtain rfl := Option.some.inj hy
      cases ho
    | @chain _ address inner z w c next seen d _ found phase made followed =>
      cases hsubject
      obtain ⟨next', y', -, hy', hphase⟩ := (moves_of_step done).chain_spec found phase
      obtain rfl := Option.some.inj (hy.symm.trans hy')
      rw [Execution.outcome?_eq_none_of_running hphase] at ho
      cases ho
    | settle found phase told settled =>
      cases hsubject
      obtain rfl := Option.some.inj (hx.symm.trans found)
      obtain ⟨rfl, -⟩ := ended_of_settle settled hy ho
      exact .settled phase told
    | expire found phase unended suspended settled =>
      cases hsubject
      obtain rfl := Option.some.inj (hx.symm.trans found)
      obtain ⟨rfl, hleft⟩ := ended_of_settle settled hy ho
      exact .expired phase unended suspended rfl hleft
    | cancel found phase closed unended suspended settled =>
      cases hsubject
      obtain rfl := Option.some.inj (hx.symm.trans found)
      obtain ⟨rfl, -⟩ := ended_of_settle settled hy ho
      exact .cancelled phase unended suspended rfl
    | withdraw => exact (hnot rfl).elim
    | write => cases hsubject
    | release found phase =>
      cases hsubject
      obtain rfl := Option.some.inj (hx.symm.trans found)
      rw [Execution.outcome?, phase] at hunended
      cases hunended
  | @called other callback _ _ raised done =>
    obtain ⟨z, hz, ⟨rfl, -⟩ | ⟨rfl, hopen, -⟩⟩ := callback_of_addCallback done
    · exact (hnot rfl).elim
    · by_cases hne : id = other
      · subst hne
        rw [execution?_put_self] at hy
        obtain rfl := Option.some.inj hy
        cases hopen.symm.trans ho
      · exact (hnot (e.execution?_put_of_ne hne _)).elim
  | closed => exact (hnot rfl).elim
  | stopped => exact (hnot rfl).elim

/-- Where in a run an execution has got its outcome. -/
theorem Run.ends {first e : Engine} {actions : List Action} {events : List Event} {id : String}
    (hrun : Run first actions e events) (hfirst : first.execution? id = none) {x : Execution}
    (hx : e.execution? id = some x) {o : Outcome} (ho : x.outcome? = some o) :
    ∃ before a rest d z seen d' shown more, actions = before ++ a :: rest ∧
      events = seen ++ (shown ++ more) ∧ Run first before d seen ∧ d.execution? id = some z ∧
      Happens d a d' shown ∧ Ends id z o shown a ∧ Run d' rest e more ∧
      chainEvents id more = [] := by
  induction hrun generalizing x with
  | rest =>
    rw [hfirst] at hx
    cases hx
  | @next actions a d after events more before happens ih =>
    cases hd : d.execution? id with
    | none =>
      obtain ⟨m, input, limit, doc, now, deadline, -, -, -, rfl⟩ := happens.starts hd hx
      cases ho
    | some z =>
      cases hoz : z.outcome? with
      | none =>
        refine ⟨actions, a, [], d, z, events, after, more, [], rfl, by simp, before, hd, happens, ?_,
          .rest, rfl⟩
        exact happens.ends hd hoz hx ho
      | some o' =>
        obtain ⟨y, hy, hoy, -⟩ := happens.outcome hd hoz
        obtain rfl := Option.some.inj (hx.symm.trans hy)
        obtain rfl := Option.some.inj (ho.symm.trans hoy)
        obtain ⟨earlier, b, rest, f, w, seen, f', shown, later, rfl, rfl, hearlier, hf, hhere, hends,
          hrest, hquiet⟩ := ih hd hoz
        refine ⟨earlier, b, rest ++ [a], f, w, seen, f', shown, later ++ more, by simp, by simp,
          hearlier, hf, hhere, hends, hrest.next happens, ?_⟩
        rw [chainEvents_append, hquiet, happens.quiet hd hoz]
        rfl

/-- A fault that passes for the deadline has come out of the main chain of the execution, and has
been taken for it. -/
def Mistaken (first : Engine) (id : String) (actions : List Action) : Prop :=
  ∃ before now rest d seen z k, actions = before ++ .move now (.settle id) :: rest ∧
    Run first before d seen ∧ d.execution? id = some z ∧
    z.phase = .running (.ended (.error (.crash k))) ∧ k.fault.family = .timeout

theorem feigned_of_timedOut {deadline : Instant} {r : Except Failure Document} {o : Outcome}
    (told : Outcome.ofResult? deadline r = some o) (htimed : o.status = .timedOut) :
    ∃ k, r = .error (.crash k) ∧ k.fault.family = .timeout := by
  unfold Outcome.ofResult? at told
  split at told
  · cases told
    cases htimed
  · rename_i k
    refine ⟨k, rfl, ?_⟩
    unfold Outcome.ofFault? at told
    split at told
    · assumption
    · cases told
      cases htimed
    · obtain ⟨cause, -, rfl⟩ := Option.map_eq_some_iff.1 told
      cases htimed
  · obtain ⟨report, -, rfl⟩ := Option.map_eq_some_iff.1 told
    cases htimed

/-- The deadline of an execution has been delivered before its main chain had ended: it has timed
out without a document, its branches have been left, and nothing of its chains is to be seen after
that. -/
structure Struck (first : Engine) (id : String) (actions : List Action) (e : Engine)
    (events : List Event) (x : Execution) : Prop where
  outcome : ∃ o, x.outcome? = some o ∧ o.status = .timedOut ∧ o.error = .str "States.Timeout" ∧
    o.document = none
  states : x.states = []
  delivered : ∃ before now rest d z c seen d' shown more,
    actions = before ++ .move now (.expire id) :: rest ∧ events = seen ++ (shown ++ more) ∧
    Run first before d seen ∧ d.execution? id = some z ∧ z.phase = .running c ∧ c.result? = none ∧
    Happens d (.move now (.expire id)) d' shown ∧ Run d' rest e more ∧
    (∀ event ∈ chainEvents id (shown ++ more), ∃ branch, event = .left branch)
  later : ∀ further after more, Run e further after more → chainEvents id more = [] ∧
    (∀ now address move, after.step now (.chain id address move) = none) ∧
    ∀ s : Scheduler, s.engine = after → ∀ address move, s.take (.chain id address move) = s

/-- An execution that has timed out has been struck by its deadline, or what has come out of its
main chain has been mistaken for it. -/
theorem Run.expired_or_mistaken {first e : Engine} {actions : List Action} {events : List Event}
    {id : String} (hrun : Run first actions e events) (hfirst : first.execution? id = none)
    {x : Execution} (hx : e.execution? id = some x) {o : Outcome} (ho : x.outcome? = some o)
    (htimed : o.status = .timedOut) :
    (∃ now, .move now (.expire id) ∈ actions) ∨ Mistaken first id actions := by
  obtain ⟨before, a, rest, d, z, seen, d', shown, more, rfl, -, hbefore, hz, -, hends, -, -⟩ :=
    hrun.ends hfirst hx ho
  cases hends with
  | @expired now c phase => exact .inl ⟨now, by simp⟩
  | @settled now r phase told =>
    obtain ⟨k, rfl, hfamily⟩ := feigned_of_timedOut told htimed
    exact .inr ⟨before, now, rest, d, seen, z, k, rfl, hbefore, hz, phase, hfamily⟩
  | cancelled phase unended suspended outcome =>
    rw [outcome] at htimed
    cases htimed

/-- A deadline that has been delivered in a run has struck the execution. -/
theorem Run.struck {first e : Engine} {actions : List Action} {events : List Event} {id : String}
    (hrun : Run first actions e events) {x : Execution} (hx : e.execution? id = some x)
    {now : Instant} (hmem : .move now (.expire id) ∈ actions) :
    Struck first id actions e events x := by
  obtain ⟨before, d, seen, d', shown, rest, more, hparts, hevents, hbefore, happens, hrest⟩ :=
    hrun.split hmem
  cases happens with
  | moved honest done =>
    cases moves_of_step done with
    | @expire _ z c _ _ found phase unended suspended settled =>
      have hput := execution?_settle d now id z (.timedOut z.deadline) (c.abandon "") none id
      rw [settled, execution?_put_self] at hput
      obtain ⟨-, hleft⟩ := ended_of_settle settled hput rfl
      obtain ⟨w, hw, hoy, hstates⟩ := hrest.outcome (o := .timedOut z.deadline) hput rfl
      obtain rfl := Option.some.inj (hx.symm.trans hw)
      refine ⟨⟨_, hoy, rfl, rfl, rfl⟩, hstates, ?_, fun further after last hfurther => ?_⟩
      · refine ⟨before, now, rest, d, z, c, seen, d', shown, more, hparts, hevents, hbefore, found,
          phase, unended, .moved honest done, hrest, ?_⟩
        rw [chainEvents_append, hrest.quiet hput (o := .timedOut z.deadline) rfl, List.append_nil,
          hleft]
        exact left_of_abandon "" c
      · obtain ⟨v, hv, hov, -⟩ := hfurther.outcome hx hoy
        refine ⟨hfurther.quiet hx hoy, step_chain_of_outcome hv hov, ?_⟩
        rintro s rfl
        exact take_of_outcome hv hov

theorem isSome_step_expire {e : Engine} {id : String} {x : Execution}
    (hx : e.execution? id = some x) (now : Instant) :
    (e.step now (.expire id)).isSome = true ↔ ∃ c, x.phase = .running c ∧ c.result? = none ∧
      ∀ address d, c.at? address = some d → d.isReady = false := by
  constructor
  · intro h
    obtain ⟨⟨after, events⟩, hstep⟩ := Option.isSome_iff_exists.1 h
    cases moves_of_step hstep with
    | @expire _ z c _ _ found phase unended suspended settled =>
      obtain rfl := Option.some.inj (hx.symm.trans found)
      exact ⟨c, phase, unended, c.isSuspended_iff.1 suspended⟩
  · rintro ⟨c, hphase, hunended, hrest⟩
    have hsuspended := c.isSuspended_iff.2 hrest
    simp [step, hx, hphase, hunended, hsuspended]

/-- Where in a run an execution has been started. -/
theorem Run.started_at {first e : Engine} {actions : List Action} {events : List Event} {id : String}
    (hrun : Run first actions e events) (hfirst : first.execution? id = none) {x : Execution}
    (hx : e.execution? id = some x) :
    ∃ before now m input limit passed doc deadline rest d seen d' shown more,
      actions = before ++ .start now id (some m) input limit passed :: rest ∧
      events = seen ++ (shown ++ more) ∧ Run first before d seen ∧ d.execution? id = none ∧
      prepare now (some m) input limit = .ok (m, doc, deadline) ∧
      (passed = true ∨ d.closed = false) ∧
      d.register now id m doc deadline = (d', shown) ∧ Run d' rest e more := by
  induction hrun generalizing x with
  | rest =>
    rw [hfirst] at hx
    cases hx
  | @next actions a d after events more before happens ih =>
    cases hd : d.execution? id with
    | none =>
      obtain ⟨m, input, limit, doc, now, deadline, passed, rfl, -, -⟩ := happens.starts hd hx
      cases happens with
      | started fresh prepared done found =>
        obtain ⟨hsame, -⟩ := prepare_eq prepared
        obtain rfl := Option.some.inj hsame
        exact ⟨actions, now, m, input, limit, passed, _, _, [], d, events, after, more, [], rfl,
          by simp, before, hd, prepared, found, done, .rest⟩
      | refused =>
        rw [hd] at hx
        cases hx
    | some z =>
      obtain ⟨earlier, now, m, input, limit, passed, doc, deadline, rest, f, seen, f', shown, later,
        rfl, rfl, hearlier, hf, hprepared, hfound, hstart, hrest⟩ := ih hd
      exact ⟨earlier, now, m, input, limit, passed, doc, deadline, rest ++ [a], f, seen, f', shown,
        later ++ more, by simp, by simp, hearlier, hf, hprepared, hfound, hstart,
        hrest.next happens⟩

/-- The execution could have been started with any other limit that a start accepts: all else in the
run could have been done as it has been, and all chains would have shown the same and all executions
would be where they are. -/
structure AnyLimit (first : Engine) (id : String) (actions : List Action) (e : Engine)
    (events : List Event) : Prop where
  other : ∃ before now m input limit passed rest,
    actions = before ++ .start now id (some m) input limit passed :: rest ∧
    ∀ limit' doc' deadline', prepare now (some m) input limit' = .ok (m, doc', deadline') →
      ∃ e' events',
        Run first (before ++ .start now id (some m) input limit' passed :: rest) e' events' ∧
        (∀ k, chainEvents k events' = chainEvents k events) ∧
        ∀ k, (e'.execution? k).map Execution.phase = (e.execution? k).map Execution.phase

/-- Executions that are the same but for a deadline which has not passed are where they are. -/
theorem Twin.phase {id other : String} {x y : Execution} (h : Twin id other x y)
    (hopen : ∀ o, x.outcome? = some o → o.status ≠ .timedOut) : y.phase = x.phase := by
  obtain ⟨deadline, phase, rfl, hredated, -⟩ := h
  cases hphase : x.phase with
  | finishing at_ o =>
    rw [hphase] at hredated
    cases hredated with
    | same => rfl
    | finishing _ outcome =>
      cases outcome with
      | same => rfl
      | timedOut => exact absurd rfl (hopen _ (Execution.outcome?_of_end (by rw [hphase]; rfl)))
  | done at_ o =>
    rw [hphase] at hredated
    cases hredated with
    | same => rfl
    | done _ outcome =>
      cases outcome with
      | same => rfl
      | timedOut => exact absurd rfl (hopen _ (Execution.outcome?_of_end (by rw [hphase]; rfl)))
  | scheduled | running =>
    rw [hphase] at hredated
    cases hredated
    rfl

theorem map_phase_of_rel {r : Execution → Execution → Prop} {x y : Option Execution}
    (h : Option.Rel r x y) (hsame : ∀ w v, x = some w → r w v → v.phase = w.phase) :
    y.map Execution.phase = x.map Execution.phase := by
  cases h with
  | none => rfl
  | some hrel => exact congrArg some (hsame _ _ rfl hrel)

theorem Run.anyLimit {first e : Engine} {actions : List Action} {events : List Event} {id : String}
    (hrun : Run first actions e events) (hfirst : first.execution? id = none) {x : Execution}
    (hx : e.execution? id = some x) (hstrike : ∀ now, .move now (.expire id) ∉ actions)
    (hplain : ¬Mistaken first id actions) : AnyLimit first id actions e events := by
  have hopen : ∀ o, x.outcome? = some o → o.status ≠ .timedOut := by
    intro o ho htimed
    obtain ⟨now, hmem⟩ | hmistaken := hrun.expired_or_mistaken hfirst hx ho htimed
    · exact hstrike now hmem
    · exact hplain hmistaken
  obtain ⟨before, now, m, input, limit, passed, doc, deadline, rest, d, seen, d', shown, more, rfl,
    rfl, hbefore, hd, hprepared, hfound, hstart, hrest⟩ := hrun.started_at hfirst hx
  have hnot : ∀ now, .move now (.expire id) ∉ rest := by
    intro now' hmem
    exact hstrike now' (by simp [hmem])
  refine ⟨before, now, m, input, limit, passed, rest, rfl, fun limit' doc' deadline' hother => ?_⟩
  obtain rfl : doc' = doc := by
    obtain ⟨-, hdoc, -⟩ := prepare_eq hprepared
    obtain ⟨-, hdoc', -⟩ := prepare_eq hother
    exact Except.ok.inj (hdoc'.symm.trans hdoc)
  obtain ⟨f, shown', hagain⟩ :
      ∃ f shown', d.register now id m doc' deadline' = (f, shown') := ⟨_, _, rfl⟩
  obtain ⟨e', more', hrun', hseen, htwins⟩ := same_with_any_limit hstart hagain hrest hnot
  refine ⟨e', seen ++ shown' ++ more', ?_, fun k => ?_, fun k => ?_⟩
  · have hall := (hbefore.next (.started hd hother hagain hfound)).append hrun'
    simpa using hall
  · obtain ⟨-, -, hnotes⟩ := register_spec hstart
    obtain ⟨-, -, hnotes'⟩ := register_spec hagain
    simp only [chainEvents_append, hnotes.chainEvents, hnotes'.chainEvents, hseen k, List.append_nil,
      List.nil_append]
  · refine map_phase_of_rel (htwins k) fun w v hw htwin => ?_
    by_cases hk : k = id
    · subst hk
      obtain rfl := Option.some.inj (hx.symm.trans hw)
      exact htwin.phase hopen
    · rw [htwin.eq hk]

/-- An execution that has no outcome after changes is where it was when it ran. -/
theorem phase_of_changes {x y : Execution} {c : Chain} (h : ReflTransGen Change x y)
    (hx : x.phase = .running c) (hy : y.outcome? = none) : y.phase = .running c := by
  induction h with
  | refl => exact hx
  | @tail z y _ hchange ih =>
    have hz : z.outcome? = none := by
      cases hoz : z.outcome? with
      | none => rfl
      | some o =>
        have hkept := (hchange.outcome hoz).1
        rw [hy] at hkept
        cases hkept
    have hphase := ih hz
    cases hchange with
    | begin phase =>
      rw [hphase] at phase
      cases phase
    | settle now phase => cases hy
    | cut now phase how => cases hy
    | release phase =>
      rw [hphase] at phase
      cases phase
    | callback callback unended => exact hphase

theorem deadline_of_changes {x y : Execution} (h : ReflTransGen Change x y) :
    y.deadline = x.deadline := by
  induction h with
  | refl => rfl
  | tail _ hchange ih =>
    cases hchange <;> exact ih

/-- What a main chain has ended with is the outcome as soon as there is one. -/
theorem Run.outcome_of_ended {e after : Engine} {actions : List Action} {more : List Event}
    {id : String} {x : Execution} {r : Except Failure Document} (hrun : Run e actions after more)
    (hx : e.execution? id = some x) (hphase : x.phase = .running (.ended r)) :
    ∃ y, after.execution? id = some y ∧ y.deadline = x.deadline ∧
      (y.phase = .running (.ended r) ∨
        y.outcome?.isSome = true ∧ y.outcome? = Outcome.ofResult? x.deadline r) := by
  induction hrun with
  | rest => exact ⟨x, hx, rfl, .inl hphase⟩
  | @next actions a d after events more before happens ih =>
    obtain ⟨z, hz, hdeadline, hcases⟩ := ih
    obtain ⟨y, hy, hchanges | ⟨now, address, move, c, next, seen, -, hc, made, -⟩⟩ :=
      happens.becomes hz
    · refine ⟨y, hy, (deadline_of_changes hchanges).trans hdeadline, ?_⟩
      obtain hrunning | ⟨hsome, hsettled⟩ := hcases
      · cases ho : y.outcome? with
        | none => exact .inl (phase_of_changes hchanges hrunning ho)
        | some o =>
          cases happens.ends hz (Execution.outcome?_eq_none_of_running hrunning) hy ho with
          | settled phase told =>
            obtain rfl := Chain.ended.inj (Phase.running.inj (hrunning.symm.trans phase))
            rw [hdeadline] at told
            exact .inr ⟨rfl, told.symm⟩
          | expired phase unended | cancelled phase unended =>
            obtain rfl := Phase.running.inj (hrunning.symm.trans phase)
            cases unended
      · obtain ⟨o, ho⟩ := Option.isSome_iff_exists.1 hsome
        obtain ⟨w, hw, how, -⟩ := happens.outcome hz ho
        obtain rfl := Option.some.inj (hy.symm.trans hw)
        rw [how, ← ho]
        exact .inr ⟨hsome, hsettled⟩
    · obtain hrunning | ⟨hsome, -⟩ := hcases
      · obtain rfl := Phase.running.inj (hrunning.symm.trans hc)
        cases address with
        | nil => cases move <;> cases made
        | cons => cases made
      · rw [Execution.outcome?_eq_none_of_running hc] at hsome
        cases hsome

/-- A call that fails fails the chain that has made it, if it can be told why. -/
theorem Stands.refused {e : Engine} {id name : String} {address : List Nat} {stop : Stop}
    {call : Call} (h : e.Stands id address name (.working stop call true)) (now : Instant)
    {fault : Fault} {cause : String} (told : fault.cause = .ok cause) :
    ∃ after more, e.step now (.chain id address (.reply (.error fault))) = some (after, more) ∧
      after.Stands id address name (.ended (.error (.task call.executor cause))) := by
  have hfails : Chain.step e.registry.contains name (.reply (.error fault))
      (.working stop call true) = some (.ended (.error (.task call.executor cause)),
        Chain.refusal name call.executor (.error fault) ++ Chain.leaving name) := by
    simp only [Chain.step, Chain.move?, Chain.take, Chain.failed, told, Chain.fail, Option.map_some,
      Chain.result?, Option.isSome_some, if_true]
  obtain ⟨after, more, hstep, hended, -⟩ := h.step hfails now
  exact ⟨after, more, hstep, hended⟩

/-- Whatever fault a call raises, one of time or any other, the chain has failed, and if it is the
main chain the execution has failed by its task. -/
structure FailsByTask (after : Engine) (id : String) (address : List Nat) (name : String)
    (call : Call) (cause : String) : Prop where
  stands : after.Stands id address name (.ended (.error (.task call.executor cause)))
  outcome : address = [] → ∀ further last shown y o, Run after further last shown →
    last.execution? id = some y → y.outcome? = some o →
    o.status = .failed ∧ o.error = .str "States.TaskFailed" ∧ o.cause = .str cause

theorem failsByTask_of_stands {after : Engine} {id name : String} {address : List Nat}
    {call : Call} {cause : String}
    (h : after.Stands id address name (.ended (.error (.task call.executor cause)))) :
    FailsByTask after id address name call cause := by
  refine ⟨h, ?_⟩
  rintro rfl further last shown y o hrun hy ho
  obtain ⟨x, c, hx, hphase, hreaches⟩ := h
  have hended : c = .ended (.error (.task call.executor cause)) := Option.some.inj hreaches.at?
  subst hended
  obtain ⟨z, hz, -, hrunning | ⟨-, hsettled⟩⟩ := hrun.outcome_of_ended hx hphase
  · obtain rfl := Option.some.inj (hy.symm.trans hz)
    rw [Execution.outcome?_eq_none_of_running hrunning] at ho
    cases ho
  · obtain rfl := Option.some.inj (hy.symm.trans hz)
    obtain rfl := Option.some.inj (ho.symm.trans hsettled)
    exact ⟨rfl, rfl, rfl⟩

/-- At any point of a run, an execution has timed out if and only if its deadline has been delivered
before its main chain had ended, unless what has come out of that chain has been mistaken for it.
The deadline may be delivered wherever the chains are suspended, at any depth; then the execution is
struck, and otherwise the run is one with any other limit. A call that fails, even for being too
slow, is no deadline: it fails the chain that has made it. -/
theorem Run.times_out_iff_struck {registry : Registry} {archive : Option Archive} {retention : Nat}
    {actions : List Action} {e : Engine} {events : List Event}
    (hrun : Run (make registry archive retention) actions e events) {id : String} {x : Execution}
    (hx : e.execution? id = some x) :
    (¬Mistaken (make registry archive retention) id actions →
      ((∃ o, x.outcome? = some o ∧ o.status = .timedOut) ↔
        ∃ now, .move now (.expire id) ∈ actions)) ∧
    (∀ now, (e.step now (.expire id)).isSome = true ↔ ∃ c, x.phase = .running c ∧
      c.result? = none ∧ ∀ address d, c.at? address = some d → d.isReady = false) ∧
    (∀ now, .move now (.expire id) ∈ actions →
      Struck (make registry archive retention) id actions e events x) ∧
    (¬Mistaken (make registry archive retention) id actions →
      (∀ now, .move now (.expire id) ∉ actions) →
      AnyLimit (make registry archive retention) id actions e events) ∧
    (∀ address name stop call fault cause now, e.Stands id address name (.working stop call true) →
      fault.cause = .ok cause →
      ∃ after more, e.step now (.chain id address (.reply (.error fault))) = some (after, more) ∧
        FailsByTask after id address name call cause) := by
  have hfresh : (make registry archive retention).execution? id = none := rfl
  refine ⟨fun hplain => ⟨?_, ?_⟩, isSome_step_expire hx, fun now hmem => hrun.struck hx hmem,
    fun hplain hstrike => hrun.anyLimit hfresh hx hstrike hplain, ?_⟩
  · rintro ⟨o, ho, htimed⟩
    exact (hrun.expired_or_mistaken hfresh hx ho htimed).resolve_right hplain
  · rintro ⟨now, hmem⟩
    obtain ⟨o, ho, htimed, -⟩ := (hrun.struck hx hmem).outcome
    exact ⟨o, ho, htimed⟩
  · intro address name stop call fault cause now hstands told
    obtain ⟨after, more, hstep, hended⟩ := hstands.refused now told
    exact ⟨after, more, hstep, failsByTask_of_stands hended⟩

def tooSlow : Fault := .ofText "TimeoutError" ""

/-- An executor that takes too long, and one whose output takes too long to read. -/
def slow : Registry :=
  ⟨[("ask", Executor.ofFunction "ask" fun _ => .error tooSlow),
    ("lend", Executor.ofFunction "lend" fun _ => .ok (.foreign
      { typeName := "Loan", shown := .ok "Loan()", text := .ok "Loan()", hashable := false,
        fault := some tooSlow }))]⟩

def lone (executor : String) : Machine :=
  .mk "Ask" [("Ask", .task (.str executor) (.str "$") (.str "$.answer") .null)] ""

def beside (first : Machine) : Machine :=
  .mk "Both" [("Both", .parallel [first, lone "ask"] [] .null)] ""

/-- The moves of an execution that forks, up to where its second branch has failed by its task. -/
def failing : List Choice :=
  [.move (.begin "i"), .move (.chain "i" [] .enter), .move (.chain "i" [0] .begin),
    .move (.chain "i" [1] .begin), .move (.chain "i" [0] .enter), .move (.chain "i" [1] .enter),
    .move (.chain "i" [1] .call), .answer "i" [1]]

def isExpire : Action → Bool
  | .move _ (.expire id) => id = "i"
  | _ => false

/-- How the execution that a schedule starts ends, and whether its deadline has been delivered. -/
def endOf (m : Machine) (choices : List Choice) : Option (Bool × Status × Option String) := do
  let (actions, e, _) ← performNew ⟨0⟩ "i" m (.dict []) (.int 1) choices (make slow none 0)
  let x ← e.execution? "i"
  let o ← x.outcome?
  let error ← Record.textOrNull o.error
  some (actions.any isExpire, o.status, error)

/-- An execution may have timed out though no deadline has been delivered, and one whose executor
has raised a fault of time may fail with another error than that of its task, or time out. -/
theorem not_always_told_apart :
    endOf (lone "lend") [.move (.begin "i"), .move (.chain "i" [] .enter),
        .move (.chain "i" [] .call), .answer "i" [], .move (.settle "i")] =
      some (false, .timedOut, some "States.Timeout") ∧
    endOf (beside (.mk "No" [("No", .fail (.str "") (.str "Overruled"))] ""))
        (failing ++ [.move (.chain "i" [] .join), .move (.settle "i")]) =
      some (false, .failed, some "Overruled") ∧
    endOf (beside (.mk "Nap" [("Nap", .wait .null (.int 30) .null)] ""))
        (failing ++ [.move (.expire "i")]) =
      some (true, .timedOut, some "States.Timeout") := by
  decide +kernel

/-- One branch sleeps, one has made a call, and one has forked again. -/
def busy : Machine :=
  .mk "Fork"
    [("Fork", .parallel
      [.mk "Nap" [("Nap", .wait .null (.int 30) .null)] "",
        .mk "Ask" [("Ask", .task (.str "ask") (.str "$") (.str "$.answer") .null)] "",
        .mk "Inner" [("Inner", .parallel
          [.mk "Rest" [("Rest", .wait .null (.int 40) .null)] ""] [] .null)] ""] [] .null)]
    ""

def asker : Registry := ⟨[("ask", Executor.ofFunction "ask" fun v => .ok (.ofValue v))]⟩

def isSettle : Action → Bool
  | .move _ (.settle _) => true
  | _ => false

def interrupted : Option (List Action × Engine × List Event) :=
  performNew ⟨0⟩ "i" busy (.dict []) (.int 1)
    [.move (.begin "i"), .move (.chain "i" [] .enter), .move (.chain "i" [0] .begin),
      .move (.chain "i" [1] .begin), .move (.chain "i" [2] .begin), .move (.chain "i" [0] .enter),
      .move (.chain "i" [1] .enter), .move (.chain "i" [1] .call), .move (.chain "i" [2] .enter),
      .move (.chain "i" [2, 0] .begin), .move (.chain "i" [2, 0] .enter), .move (.expire "i")]
    (make asker none 0)

theorem times_out_iff_struck_interrupted :
    ∃ actions e events x now, interrupted = some (actions, e, events) ∧
      Run (make asker none 0) actions e events ∧ e.execution? "i" = some x ∧
      .move now (.expire "i") ∈ actions ∧ ¬Mistaken (make asker none 0) "i" actions ∧
      (∃ o, x.outcome? = some o ∧ o.status = .timedOut) ∧
      Struck (make asker none 0) "i" actions e events x := by
  have hcomputed : interrupted.any (fun run => run.1.any isExpire && !run.1.any isSettle &&
      (run.2.1.execution? "i").isSome) = true := by decide +kernel
  obtain ⟨⟨actions, e, events⟩, hsome, hrest⟩ := (Option.any_eq_true _ _).1 hcomputed
  obtain ⟨hboth, hthere⟩ := Bool.and_eq_true_iff.1 hrest
  obtain ⟨hany, hsettle⟩ := Bool.and_eq_true_iff.1 hboth
  obtain ⟨x, hx⟩ := Option.isSome_iff_exists.1 hthere
  obtain ⟨a, ha, hexpire⟩ := List.any_eq_true.1 hany
  have hplain : ¬Mistaken (make asker none 0) "i" actions := by
    rintro ⟨before, now, rest, d, seen, z, k, rfl, -⟩
    simp [isSettle] at hsettle
  unfold isExpire at hexpire
  split at hexpire
  case h_2 => cases hexpire
  case h_1 now id =>
    obtain rfl := of_decide_eq_true hexpire
    have hfresh : (make asker none 0).execution? "i" = none := rfl
    have hrun := Run.of_performNew hfresh hsome
    obtain ⟨htimed, -, hstruck, -⟩ := hrun.times_out_iff_struck hx
    exact ⟨actions, e, events, x, now, hsome, hrun, hx, ha, hplain, (htimed hplain).2 ⟨now, ha⟩,
      hstruck now ha⟩

end Engine

end ReminderFlow
