import ReminderFlow.Proofs.Engine.Run

namespace ReminderFlow.Engine

inductive Moves (e : Engine) (now : Instant) : Move → Engine → List Event → Prop where
  | begin {id : String} {x : Execution} (found : e.execution? id = some x)
      (phase : x.phase = .scheduled) :
      Moves e now (.begin id)
        (e.put id { x with phase := .running (.ready x.machine x.machine.start x.input) }) []
  | chain {id : String} {address : List Nat} {move : Chain.Move} {x y : Execution} {c next : Chain}
      {seen : List Chain.Event} {d : Engine} {events : List Event}
      (found : e.execution? id = some x) (phase : x.phase = .running c)
      (made : c.stepAt e.registry.contains move address "" = some (next, seen))
      (followed : e.follow now id { x with phase := .running next } seen = (d, y, events)) :
      Moves e now (.chain id address move) (d.put id y) events
  | settle {id : String} {x : Execution} {r : Except Failure Document} {after : Engine}
      {outcome : Outcome} {events : List Event} (found : e.execution? id = some x)
      (phase : x.phase = .running (.ended r)) (told : Outcome.ofResult? x.deadline r = some outcome)
      (settled : e.settle now id x outcome [] (crash? r) = (after, events)) :
      Moves e now (.settle id) after events
  | expire {id : String} {x : Execution} {c : Chain} {after : Engine} {events : List Event}
      (found : e.execution? id = some x) (phase : x.phase = .running c)
      (unended : c.result? = none) (suspended : c.isSuspended = true)
      (settled : e.settle now id x (.timedOut x.deadline) (c.abandon "") none = (after, events)) :
      Moves e now (.expire id) after events
  | cancel {id : String} {x : Execution} {c : Chain} {after : Engine} {events : List Event}
      (found : e.execution? id = some x) (phase : x.phase = .running c)
      (closed : e.closed = true) (unended : c.result? = none) (suspended : c.isSuspended = true)
      (settled : e.settle now id x .cancelled (c.abandon "") none = (after, events)) :
      Moves e now (.cancel id) after events
  | withdraw {id : String} {x : Execution} {at_ : Instant} {outcome : Outcome}
      (found : e.execution? id = some x) (phase : x.phase = .finishing at_ outcome)
      (closed : e.closed = true) (unwritten : e.isWriting id = true) :
      Moves e now (.withdraw id) (e.withdraw id).1 (e.withdraw id).2
  | write {r : Record} {rest : List Record} {a : Archive} (first : e.writing = r :: rest)
      (archive : e.archive = some a) :
      Moves e now .write { e with writing := rest, archive := some (write a r).1 }
        [.written r (write a r).2]
  | release {id : String} {x : Execution} {at_ : Instant} {outcome : Outcome}
      (found : e.execution? id = some x) (phase : x.phase = .finishing at_ outcome)
      (gone : e.isWriting id = false) :
      Moves e now (.release id) (e.release id x at_ outcome).1 (e.release id x at_ outcome).2

theorem moves_of_step {e after : Engine} {now : Instant} {move : Move} {events : List Event}
    (done : e.step now move = some (after, events)) : Moves e now move after events := by
  cases move with
  | begin id =>
    obtain ⟨x, hx, h⟩ := Option.bind_eq_some_iff.1 done
    split at h
    case h_1 hphase =>
      cases h
      exact .begin hx hphase
    case h_2 => cases h
  | chain id address move =>
    obtain ⟨x, hx, h⟩ := Option.bind_eq_some_iff.1 done
    split at h
    case h_1 c hphase =>
      obtain ⟨⟨next, seen⟩, hstep, h⟩ := Option.bind_eq_some_iff.1 h
      cases h
      exact .chain hx hphase hstep rfl
    case h_2 => cases h
  | settle id =>
    obtain ⟨x, hx, h⟩ := Option.bind_eq_some_iff.1 done
    split at h
    case h_1 r hphase =>
      obtain ⟨outcome, htold, h⟩ := Option.map_eq_some_iff.1 h
      exact .settle hx hphase htold h
    case h_2 => cases h
  | expire id =>
    obtain ⟨x, hx, h⟩ := Option.bind_eq_some_iff.1 done
    split at h
    case h_1 c hphase =>
      split_ifs at h with hmay
      rw [Bool.and_eq_true, Option.isNone_iff_eq_none] at hmay
      exact .expire hx hphase hmay.1 hmay.2 (Option.some.inj h)
    case h_2 => cases h
  | cancel id =>
    obtain ⟨x, hx, h⟩ := Option.bind_eq_some_iff.1 done
    split at h
    case h_1 c hphase =>
      split_ifs at h with hmay
      rw [Bool.and_eq_true, Bool.and_eq_true, Option.isNone_iff_eq_none] at hmay
      exact .cancel hx hphase hmay.1.1 hmay.1.2 hmay.2 (Option.some.inj h)
    case h_2 => cases h
  | withdraw id =>
    obtain ⟨x, hx, h⟩ := Option.bind_eq_some_iff.1 done
    split at h
    case h_1 at_ outcome hphase =>
      split_ifs at h with hmay
      rw [Bool.and_eq_true] at hmay
      cases h
      exact .withdraw hx hphase hmay.1 hmay.2
    case h_2 => cases h
  | write =>
    simp only [step] at done
    split at done
    case h_1 r rest a hfirst harchive =>
      cases done
      exact .write hfirst harchive
    case h_2 => cases done
  | release id =>
    obtain ⟨x, hx, h⟩ := Option.bind_eq_some_iff.1 done
    split at h
    case h_1 at_ outcome hphase =>
      split_ifs at h with hwriting
      cases h
      exact .release hx hphase (Bool.eq_false_iff.2 hwriting)
    case h_2 => cases h

/-- The execution that a move is about. -/
def Move.subject? : Move → Option String
  | .begin id => some id
  | .chain id _ _ => some id
  | .settle id => some id
  | .expire id => some id
  | .cancel id => some id
  | .withdraw id => some id
  | .write => none
  | .release id => some id

theorem execution?_settle (e : Engine) (now : Instant) (id : String) (x : Execution)
    (outcome : Outcome) (left : List Chain.Event) (crash : Option Fault) (other : String) :
    (e.settle now id x outcome left crash).1.execution? other =
      (e.put id { x with states := [], phase := .finishing now outcome }).execution? other := by
  let y : Execution := { x with states := [], phase := .finishing now outcome }
  have hx := ((e.put id y).persist_spec (y.record? id now)).1
  rw [execution?, settle, hx, execution?]

theorem execution?_follow (e : Engine) (now : Instant) (id : String) (x : Execution)
    (events : List Chain.Event) (other : String) :
    (e.follow now id x events).1.execution? other = e.execution? other := by
  have hx := (e.follow_spec now id x events).1
  rw [execution?, hx, execution?]

/-- A move changes no other execution than the one it is about. -/
theorem Moves.execution?_of_ne {e after : Engine} {now : Instant} {move : Move}
    {events : List Event} (h : Moves e now move after events) {id : String}
    (hne : move.subject? ≠ some id) : after.execution? id = e.execution? id := by
  have hother {other : String} (hne : some other ≠ some id) : id ≠ other :=
    fun heq => hne (congrArg some heq.symm)
  cases h with
  | begin found phase => exact e.execution?_put_of_ne (hother hne) _
  | chain found phase made followed =>
    rw [execution?_put_of_ne _ (hother hne), ← execution?_follow e, followed]
  | settle found phase told settled =>
    rw [← execution?_put_of_ne e (hother hne), ← execution?_settle, settled]
  | cancel found phase closed unended suspended settled =>
    rw [← execution?_put_of_ne e (hother hne), ← execution?_settle, settled]
  | withdraw found phase closed unwritten => rfl
  | expire found phase unended suspended settled =>
    rw [← execution?_put_of_ne e (hother hne), ← execution?_settle, settled]
  | write first archive => rfl
  | release found phase gone => exact execution?_put_of_ne _ (hother hne) _

theorem phase_of_isDone {x : Execution} (h : x.phase.isDone = true) :
    ∃ at_ outcome, x.phase = .done at_ outcome := by
  cases hphase : x.phase with
  | done at_ outcome => exact ⟨at_, outcome, rfl⟩
  | _ =>
    rw [hphase] at h
    cases h

/-- What is looked at before an execution is registered. -/
theorem prepare_eq {now : Instant} {machine : Option Machine} {input limit : Datum} {m : Machine}
    {doc : Document} {deadline : Instant}
    (h : prepare now machine input limit = .ok (m, doc, deadline)) :
    machine = some m ∧ Document.ofDatum input = .ok doc ∧
      ∃ seconds micros, limit.limit? = .ok seconds ∧ seconds.micros? = .ok micros ∧
        now.after? micros = some deadline := by
  cases machine with
  | none => cases h
  | some machine =>
    simp only [prepare, bind, Except.bind, pure, Except.pure] at h
    cases hlimit : limit.limit? with
    | error fault => simp [hlimit, Except.mapError] at h
    | ok seconds =>
    cases hinput : Document.ofDatum input with
    | error fault => simp [hlimit, hinput, Except.mapError] at h
    | ok d =>
    cases hmicros : seconds.micros? with
    | error fault => simp [hlimit, hinput, hmicros, Except.mapError] at h
    | ok micros =>
    cases hafter : now.after? micros with
    | none =>
      simp only [hlimit, hinput, hmicros, hafter, Except.mapError] at h
      cases h
    | some end_ =>
      simp only [hlimit, hinput, hmicros, hafter, Except.mapError] at h
      cases h
      exact ⟨rfl, rfl, seconds, micros, rfl, hmicros, hafter⟩

/-- What a start does that is not refused. -/
theorem start_eq {e after : Engine} {now : Instant} {id : String} {machine : Option Machine}
    {input limit : Datum} {events : List Event}
    (done : e.start now id machine input limit = .ok (after, events)) :
    e.closed = false ∧ ∃ m doc deadline, prepare now machine input limit = .ok (m, doc, deadline) ∧
      e.register now id m doc deadline = (after, events) := by
  unfold start at done
  split_ifs at done with hclosed
  cases hprepare : prepare now machine input limit with
  | error fault =>
    rw [hprepare] at done
    cases done
  | ok prepared =>
    obtain ⟨m, doc, deadline⟩ := prepared
    rw [hprepare] at done
    exact ⟨Bool.eq_false_iff.2 hclosed, m, doc, deadline, rfl, Except.ok.inj done⟩

/-- A start is refused when it finds the engine closed, and for what is wrong with it. -/
theorem enter_eq_error_iff {e : Engine} {now : Instant} {id : String} {machine : Option Machine}
    {input limit : Datum} {passed : Bool} {fault : StartError} :
    e.enter now id machine input limit passed = .error fault ↔
      if !passed && e.closed then fault = .closed
      else prepare now machine input limit = .error fault := by
  unfold enter start
  dsimp only
  split_ifs with hclosed
  · rw [Except.error.injEq, eq_comm]
  · cases prepare now machine input limit with
    | error other => simp [Except.map]
    | ok prepared => simp [Except.map]

theorem prepare_of_enter {e : Engine} {now : Instant} {id : String} {machine : Option Machine}
    {input limit : Datum} {passed : Bool} {fault : StartError}
    (h : e.enter now id machine input limit passed = .error fault)
    (found : passed = true ∨ e.closed = false) : prepare now machine input limit = .error fault := by
  have hopen : ¬(!passed && e.closed) = true := by
    rcases found with rfl | hclosed
    · exact Bool.false_ne_true
    · rw [hclosed, Bool.and_false]
      exact Bool.false_ne_true
  rw [enter_eq_error_iff, if_neg hopen] at h
  exact h

/-- To register an execution is to put it among the others and to hand over its first record. -/
theorem persist_of_register {e after : Engine} {now : Instant} {id : String} {m : Machine}
    {doc : Document} {deadline : Instant} {events : List Event}
    (done : e.register now id m doc deadline = (after, events)) :
    let x : Execution := ⟨m, doc, now, deadline, [], .scheduled, []⟩
    let d : Engine := { e.put id x with live := e.live ++ [id] }
    (d.persist (some (x.record id now))).1 = after ∧
      (d.persist (some (x.record id now))).2 ++ [.started id deadline] = events :=
  ⟨congrArg Prod.fst done, congrArg Prod.snd done⟩

theorem register_spec {e after : Engine} {now : Instant} {id : String} {m : Machine}
    {doc : Document} {deadline : Instant} {events : List Event}
    (done : e.register now id m doc deadline = (after, events)) :
    let x : Execution := ⟨m, doc, now, deadline, [], .scheduled, []⟩
    after.executions = (e.put id x).executions ∧ after.registry = e.registry ∧ Notes events := by
  obtain ⟨rfl, rfl⟩ := persist_of_register done
  intro x
  obtain ⟨hx, hr, hnotes⟩ := persist_spec { e.put id x with live := e.live ++ [id] }
    (some (x.record id now))
  refine ⟨hx, hr, fun event hevent => ?_⟩
  rcases List.mem_append.1 hevent with hevent | hevent
  · exact hnotes event hevent
  · rw [List.mem_singleton.1 hevent]
    trivial

/-- To add a callback changes nothing but callbacks. -/
theorem callback_of_addCallback {e after : Engine} {id : String} {callback : Callback}
    {events : List Event} {raised : Option String}
    (done : e.addCallback id callback = some (after, events, raised)) :
    ∃ x, e.execution? id = some x ∧
      ((after = e ∧ ∃ outcome, x.outcome? = some outcome ∧ events = [.notified callback id outcome]) ∨
        (after = e.put id { x with callbacks := x.callbacks ++ [callback] } ∧ x.outcome? = none ∧
          events = [])) := by
  obtain ⟨x, hx, h⟩ := Option.bind_eq_some_iff.1 done
  refine ⟨x, hx, ?_⟩
  split at h
  case h_1 outcome houtcome =>
    cases h
    exact .inl ⟨rfl, outcome, houtcome, rfl⟩
  case h_2 houtcome =>
    cases h
    exact .inr ⟨rfl, houtcome, rfl⟩

/-- Whether the engine is closed, and whether records are no longer taken. -/
def gates (e : Engine) : Bool × Bool := (e.closed, e.shut)

theorem gates_persist (e : Engine) (r : Option Record) : (e.persist r).1.gates = e.gates := by
  obtain ⟨-, h⟩ | ⟨record, -, -, h⟩ | ⟨record, -, -, -, h⟩ := e.persist_cases r <;> rw [h]
  rfl

theorem gates_follow (e : Engine) (now : Instant) (id : String) (x : Execution)
    (events : List Chain.Event) : (e.follow now id x events).1.gates = e.gates := by
  induction events generalizing e x with
  | nil => rfl
  | cons event rest ih =>
    cases event with
    | entered branch state type =>
      let y : Execution := { x with states := (Chain.Event.entered branch state type).track x.states }
      let r := some (y.record id now)
      exact (ih (e.persist r).1 y).trans (gates_persist e r)
    | _ => exact ih e _

theorem gates_settle (e : Engine) (now : Instant) (id : String) (x : Execution) (outcome : Outcome)
    (left : List Chain.Event) (crash : Option Fault) :
    (e.settle now id x outcome left crash).1.gates = e.gates := gates_persist _ _

theorem gates_register {e after : Engine} {now : Instant} {id : String} {m : Machine}
    {doc : Document} {deadline : Instant} {events : List Event}
    (done : e.register now id m doc deadline = (after, events)) : after.gates = e.gates := by
  obtain ⟨rfl, -⟩ := persist_of_register done
  rw [gates_persist]
  rfl

theorem Moves.gates {e after : Engine} {now : Instant} {move : Move} {events : List Event}
    (h : Moves e now move after events) : after.gates = e.gates := by
  cases h with
  | begin => rfl
  | @chain id _ _ x _ _ next seen _ _ found phase made followed =>
    have hgates := gates_follow e now id { x with phase := .running next } seen
    rwa [followed] at hgates
  | settle found phase told settled =>
    rw [← gates_settle e, settled]
  | expire found phase unended suspended settled =>
    rw [← gates_settle e, settled]
  | cancel found phase closed unended suspended settled =>
    rw [← gates_settle e, settled]
  | withdraw => rfl
  | write => rfl
  | release => rfl

theorem gates_addCallback {e after : Engine} {id : String} {callback : Callback}
    {events : List Event} {raised : Option String}
    (done : e.addCallback id callback = some (after, events, raised)) : after.gates = e.gates := by
  obtain ⟨x, -, ⟨rfl, -⟩ | ⟨rfl, -⟩⟩ := callback_of_addCallback done <;> rfl

/-- Only to close the engine closes it, and only to stop it stops the records. -/
theorem Happens.gates {e after : Engine} {a : Action} {events : List Event}
    (h : Happens e a after events) :
    after.gates = (e.closed || a matches .close, e.shut || a matches .stop) := by
  have hsame : e.gates = (e.closed || false, e.shut || false) := by
    rw [Bool.or_false, Bool.or_false]
    rfl
  cases h with
  | started fresh prepared done => exact (gates_register done).trans hsame
  | refused => exact hsame
  | moved honest done => exact (moves_of_step done).gates.trans hsame
  | called done => exact (gates_addCallback done).trans hsame
  | closed => simp [Engine.gates, close]
  | stopped => simp [Engine.gates, stop]

theorem Run.closed_eq_false {first e : Engine} {actions : List Action} {events : List Event}
    (hrun : Run first actions e events) (hfirst : first.closed = false) (hopen : .close ∉ actions) :
    e.closed = false := by
  induction hrun with
  | rest => exact hfirst
  | @next actions a d after seen more before happens ih =>
    rw [List.mem_append, List.mem_singleton, not_or] at hopen
    have hclosed := congrArg Prod.fst happens.gates
    change after.closed = _ at hclosed
    rw [hclosed, ih hopen.1]
    cases a with
    | close => exact absurd rfl hopen.2
    | _ => rfl

end ReminderFlow.Engine
