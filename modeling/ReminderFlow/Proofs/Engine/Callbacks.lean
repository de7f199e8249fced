import ReminderFlow.Proofs.Engine.Schedule
import ReminderFlow.Proofs.Engine.Settled

namespace ReminderFlow.Engine

def calledBack? (id : String) : Event → Option (Callback × Outcome)
  | .notified c other o => if other = id then some (c, o) else none
  | _ => none

/-- The calls of callbacks of an execution, in their order. -/
def calledBack (id : String) (events : List Event) : List (Callback × Outcome) :=
  events.filterMap (calledBack? id)

def added? (id : String) : Action → Option Callback
  | .addCallback other c => if other = id then some c else none
  | _ => none

/-- The callbacks that have been added to an execution, in their order. -/
def added (id : String) (actions : List Action) : List Callback := actions.filterMap (added? id)

theorem calledBack_append (id : String) (before after : List Event) :
    calledBack id (before ++ after) = calledBack id before ++ calledBack id after :=
  List.filterMap_append

theorem added_append (id : String) (before after : List Action) :
    added id (before ++ after) = added id before ++ added id after :=
  List.filterMap_append

theorem added_addCallback (id : String) (c : Callback) : added id [.addCallback id c] = [c] := by
  simp [added, added?]

/-- No callback is called in the events. -/
def Silent (events : List Event) : Prop := ∀ c id o, .notified c id o ∉ events

theorem silent_nil : Silent [] := by
  intro c id o h
  cases h

theorem Silent.append {before after : List Event} (hb : Silent before) (ha : Silent after) :
    Silent (before ++ after) := by
  intro c id o h
  rcases List.mem_append.1 h with h | h
  · exact hb c id o h
  · exact ha c id o h

theorem Silent.cons {event : Event} {events : List Event} (h : Silent events)
    (hevent : ∀ c id o, event ≠ .notified c id o) : Silent (event :: events) := by
  intro c id o hmem
  rcases List.mem_cons.1 hmem with heq | hmem
  · exact hevent c id o heq.symm
  · exact h c id o hmem

theorem Silent.calledBack {events : List Event} (h : Silent events) (id : String) :
    calledBack id events = [] := by
  rw [Engine.calledBack, List.filterMap_eq_nil_iff]
  intro event hevent
  cases event with
  | notified c other o => exact absurd hevent (h c other o)
  | _ => rfl

theorem silent_chain (id : String) (events : List Chain.Event) : Silent (events.map (.chain id)) := by
  intro c other o h
  obtain ⟨event, -, heq⟩ := List.mem_map.1 h
  cases heq

theorem silent_persist (e : Engine) (r : Option Record) : Silent (e.persist r).2 := by
  obtain ⟨-, h⟩ | ⟨record, -, -, h⟩ | ⟨record, -, -, -, h⟩ := e.persist_cases r
  · rw [h]
    exact silent_nil
  · rw [h]
    exact silent_nil.cons fun _ _ _ => Event.noConfusion
  · rw [h]
    exact silent_nil.cons fun _ _ _ => Event.noConfusion

theorem silent_follow (e : Engine) (now : Instant) (id : String) (x : Execution)
    (events : List Chain.Event) : Silent (e.follow now id x events).2.2 := by
  induction events generalizing e x with
  | nil => exact silent_nil
  | cons event rest ih =>
    have hrest (d : Engine) (y : Execution) :
        Silent (.chain id event :: (d.follow now id y rest).2.2) :=
      (ih d y).cons fun _ _ _ => Event.noConfusion
    cases event with
    | entered branch state type =>
      let y : Execution := { x with states := (Chain.Event.entered branch state type).track x.states }
      exact (silent_persist e (some (y.record id now))).append (hrest _ _)
    | _ => exact hrest _ _

theorem silent_settle (e : Engine) (now : Instant) (id : String) (x : Execution) (outcome : Outcome)
    (left : List Chain.Event) (crash : Option Fault) :
    Silent (e.settle now id x outcome left crash).2 := by
  let y : Execution := { x with states := [], phase := .finishing now outcome }
  refine (silent_chain id left).append ?_
  exact (silent_persist (e.put id y) (y.record? id now)).cons fun _ _ _ => Event.noConfusion

theorem silent_withdraw (e : Engine) (id : String) : Silent (e.withdraw id).2 := by
  intro c other o h
  obtain ⟨r, -, heq⟩ := List.mem_map.1 h
  cases heq

/-- What a callback raises calls no other one. -/
theorem calledBack_notify (id other : String) (outcome : Outcome) (c : Callback) :
    calledBack id (notify other outcome c) = if other = id then [(c, outcome)] else [] := by
  have hraised : Silent (c.raises.toList.map (.complained other)) := by
    intro c' id' o h
    obtain ⟨report, -, heq⟩ := List.mem_map.1 h
    cases heq
  rw [notify, ← List.singleton_append, calledBack_append, hraised.calledBack, List.append_nil]
  by_cases hne : other = id <;> simp [calledBack, calledBack?, hne]

theorem calledBack_release (e : Engine) (id : String) (x : Execution) (at_ : Instant)
    (outcome : Outcome) :
    calledBack id (e.release id x at_ outcome).2 = x.callbacks.map fun c => (c, outcome) := by
  have hall (cs : List Callback) : calledBack id (cs.flatMap (notify id outcome)) =
      cs.map fun c => (c, outcome) := by
    induction cs with
    | nil => rfl
    | cons c rest ih =>
      rw [List.flatMap_cons, calledBack_append, calledBack_notify, if_pos rfl, ih]
      rfl
  exact hall x.callbacks

theorem calledBack_release_of_ne {id other : String} (hne : other ≠ id) (e : Engine) (x : Execution)
    (at_ : Instant) (outcome : Outcome) : calledBack id (e.release other x at_ outcome).2 = [] := by
  have hall (cs : List Callback) : calledBack id (cs.flatMap (notify other outcome)) = [] := by
    induction cs with
    | nil => rfl
    | cons c rest ih =>
      rw [List.flatMap_cons, calledBack_append, calledBack_notify, if_neg hne, ih]
      rfl
  exact hall x.callbacks

/-- The callbacks of an execution are kept, or the execution is done and all of them are called. -/
inductive Service (x y : Execution) (calls : List (Callback × Outcome)) : Prop where
  | kept (same : y.phase.isDone = x.phase.isDone) (callbacks : y.callbacks = x.callbacks)
      (nothing : calls = [])
  | called {o : Outcome} (undone : x.phase.isDone = false) (done : y.phase.isDone = true)
      (outcome : y.outcome? = some o) (all : calls = x.callbacks.map fun c => (c, o))

/-- What happens keeps the callbacks of the execution or calls them, and nothing of an execution
that is not there. -/
structure Serves (id : String) (e after : Engine) (more : List Event) : Prop where
  absent : e.execution? id = none → after.execution? id = none ∧ calledBack id more = []
  present : ∀ x, e.execution? id = some x → ∃ y, after.execution? id = some y ∧
    (∀ o, x.outcome? = some o → y.outcome? = some o) ∧ Service x y (calledBack id more)

theorem serves_of_same {id : String} {e after : Engine} {more : List Event}
    (hx : after.execution? id = e.execution? id) (hs : calledBack id more = []) :
    Serves id e after more := by
  refine ⟨fun h => ⟨hx.trans h, hs⟩, fun x h => ⟨x, hx.trans h, fun _ ho => ho, ?_⟩⟩
  exact .kept rfl rfl hs

theorem serves_of_put {id other : String} {e after : Engine} {more : List Event} {x y : Execution}
    (hx : e.execution? other = some x)
    (ha : ∀ id, after.execution? id = (e.put other y).execution? id)
    (houtcome : ∀ o, x.outcome? = some o → y.outcome? = some o)
    (hself : Service x y (calledBack other more)) (hothers : other ≠ id → calledBack id more = []) :
    Serves id e after more := by
  by_cases hne : other = id
  · subst hne
    refine ⟨fun hnone => ?_, fun z hz => ?_⟩
    · rw [hx] at hnone
      cases hnone
    · obtain rfl := Option.some.inj (hx.symm.trans hz)
      exact ⟨y, (ha other).trans (e.execution?_put_self other y), houtcome, hself⟩
  · exact serves_of_same ((ha id).trans (e.execution?_put_of_ne (Ne.symm hne) y)) (hothers hne)

/-- A running execution gets its outcome; its callbacks are kept. -/
theorem serves_settle {e : Engine} {other : String} {x : Execution} {c : Chain}
    (hx : e.execution? other = some x) (hphase : x.phase = .running c) (id : String) (now : Instant)
    (outcome : Outcome) (left : List Chain.Event) (crash : Option Fault) :
    Serves id e (e.settle now other x outcome left crash).1
      (e.settle now other x outcome left crash).2 := by
  have hsilent := silent_settle e now other x outcome left crash
  refine serves_of_put hx (e.execution?_settle now other x outcome left crash) (fun o ho => ?_) ?_
    fun _ => hsilent.calledBack id
  · rw [Execution.outcome?_eq_none_of_running hphase] at ho
    cases ho
  · exact .kept (by rw [hphase]; rfl) rfl (hsilent.calledBack other)

theorem Moves.serves {e after : Engine} {now : Instant} {move : Move} {events : List Event}
    (h : Moves e now move after events) (id : String) : Serves id e after events := by
  cases h with
  | begin found phase =>
    refine serves_of_put found (fun _ => rfl) (fun o ho => ?_) ?_ fun _ => rfl
    · rw [Execution.outcome?, phase] at ho
      cases ho
    · exact .kept (by rw [phase]; rfl) rfl rfl
  | @chain other address move x y c next seen d _ found phase made followed =>
    have hsilent := silent_follow e now other { x with phase := .running next } seen
    have hsame := e.execution?_follow now other { x with phase := .running next } seen
    obtain ⟨-, -, ⟨states, hstates⟩, -⟩ :=
      e.follow_spec now other { x with phase := .running next } seen
    rw [followed] at hsilent hsame hstates
    obtain rfl : y = { x with phase := .running next, states := states } := hstates
    refine serves_of_put found (y := { x with phase := .running next, states := states })
      (fun id' => ?_) (fun o ho => ?_) ?_ fun _ => hsilent.calledBack id
    · by_cases hne : id' = other
      · subst hne
        rw [execution?_put_self, execution?_put_self]
      · rw [execution?_put_of_ne _ hne, execution?_put_of_ne _ hne]
        exact hsame id'
    · rw [Execution.outcome?_eq_none_of_running phase] at ho
      cases ho
    · exact .kept (by rw [phase]; rfl) rfl (hsilent.calledBack other)
  | @settle other x r _ outcome _ found phase told settled =>
    have hserves := serves_settle found phase id now outcome [] (crash? r)
    rwa [settled] at hserves
  | @expire other x c _ _ found phase unended suspended settled =>
    have hserves := serves_settle found phase id now (.timedOut x.deadline) (c.abandon "") none
    rwa [settled] at hserves
  | @cancel other x c _ _ found phase closed unended suspended settled =>
    have hserves := serves_settle found phase id now .cancelled (c.abandon "") none
    rwa [settled] at hserves
  | @withdraw other => exact serves_of_same rfl ((silent_withdraw e other).calledBack id)
  | write first archive => exact serves_of_same rfl rfl
  | @release other x at_ outcome found phase gone =>
    refine serves_of_put found (fun _ => rfl) (fun o ho => ?_) ?_
      fun hne => calledBack_release_of_ne hne e x at_ outcome
    · rw [Execution.outcome?, phase] at ho
      exact ho
    · exact .called (by rw [phase]; rfl) rfl rfl (calledBack_release e other x at_ outcome)

theorem silent_register {e after : Engine} {now : Instant} {id : String} {m : Machine}
    {doc : Document} {deadline : Instant} {events : List Event}
    (done : e.register now id m doc deadline = (after, events)) : Silent events := by
  obtain ⟨-, rfl⟩ := persist_of_register done
  exact (silent_persist _ _).append (silent_nil.cons fun _ _ _ => Event.noConfusion)

/-- Whatever happens serves the callbacks of an execution that is there, but for the adding of one
more. -/
theorem Happens.serves {e after : Engine} {a : Action} {events : List Event} {id : String}
    {x : Execution} (h : Happens e a after events) (hx : e.execution? id = some x)
    (hadd : ∀ c, a ≠ .addCallback id c) : Serves id e after events := by
  cases h with
  | @started now other machine input limit m doc deadline _ _ fresh prepared done =>
    have hne : id ≠ other := by
      rintro rfl
      rw [hx] at fresh
      cases fresh
    apply serves_of_same
    · rw [execution?, (register_spec done).1]
      exact e.execution?_put_of_ne hne _
    · exact (silent_register done).calledBack id
  | refused done => exact serves_of_same rfl rfl
  | moved honest done => exact (moves_of_step done).serves id
  | @called other callback _ _ raised done =>
    have hne : other ≠ id := by
      rintro rfl
      exact hadd callback rfl
    obtain ⟨x, hx, ⟨rfl, o, -, rfl⟩ | ⟨rfl, -, rfl⟩⟩ := callback_of_addCallback done
    · exact serves_of_same rfl (by simp [calledBack, calledBack?, hne])
    · exact serves_of_same (e.execution?_put_of_ne (Ne.symm hne) _) rfl
  | closed => exact serves_of_same rfl rfl
  | stopped => exact serves_of_same rfl rfl

/-- No callback of an execution is called before it is there. -/
theorem Happens.calledBack_of_absent {e after : Engine} {a : Action} {events : List Event}
    {id : String}
    (h : Happens e a after events) (hx : e.execution? id = none) : calledBack id events = [] := by
  cases h with
  | started fresh prepared done => exact (silent_register done).calledBack id
  | refused => rfl
  | moved honest done => exact (((moves_of_step done).serves id).absent hx).2
  | @called other callback _ _ raised done =>
    obtain ⟨x, hother, ⟨-, o, -, rfl⟩ | ⟨-, -, rfl⟩⟩ := callback_of_addCallback done
    · have hne : other ≠ id := by
        rintro rfl
        rw [hx] at hother
        cases hother
      simp [calledBack, calledBack?, hne]
    · rfl
  | closed => rfl
  | stopped => rfl

/-- The action has given the execution its outcome. -/
structure Gives (id : String) (o : Outcome) (d : Engine) (a : Action) (d' : Engine) : Prop where
  happens : ∃ shown, Happens d a d' shown
  before : ∀ x, d.execution? id = some x → x.outcome? = none
  after : ∃ y, d'.execution? id = some y ∧ y.outcome? = some o

/-- It is not by a callback that an execution gets its outcome. -/
theorem Gives.added {id : String} {o : Outcome} {d d' : Engine} {a : Action}
    (h : Gives id o d a d') : added id [a] = [] := by
  cases a with
  | addCallback other c =>
    by_cases hne : other = id
    · subst hne
      obtain ⟨shown, happens⟩ := h.happens
      obtain ⟨y, hy, ho⟩ := h.after
      cases happens with
      | called done =>
        obtain ⟨x, hx, ⟨-, o', ho', -⟩ | ⟨rfl, hunended, -⟩⟩ := callback_of_addCallback done
        · rw [h.before x hx] at ho'
          cases ho'
        · obtain rfl := Option.some.inj ((d.execution?_put_self other _).symm.trans hy)
          cases hunended.symm.trans ho
    · simp [Engine.added, added?, hne]
  | _ => rfl

/-- The callbacks of an execution have been looked after: those that were added early, before
there was an outcome, are called when it is done, and the others at once. -/
inductive Attended (first : Engine) (id : String) (actions : List Action)
    (calls : List (Callback × Outcome)) (x : Execution) : Prop where
  | waiting (unended : x.outcome? = none) (kept : x.callbacks = added id actions)
      (nothing : calls = [])
  | ended {o : Outcome} {before rest : List Action} {a : Action} {d d' : Engine} {seen : List Event}
      (parts : actions = before ++ a :: rest) (run : Run first before d seen)
      (gives : Gives id o d a d') (outcome : x.outcome? = some o) (undone : x.phase.isDone = false)
      (kept : x.callbacks = added id before)
      (late : calls = (added id rest).map fun c => (c, o))
  | done {o : Outcome} {before rest : List Action} {a : Action} {d d' : Engine} {seen : List Event}
      {between after : List Callback} (parts : actions = before ++ a :: rest)
      (run : Run first before d seen) (gives : Gives id o d a d') (outcome : x.outcome? = some o)
      (isDone : x.phase.isDone = true) (late : added id rest = between ++ after)
      (all : calls = (between ++ added id before ++ after).map fun c => (c, o))

theorem isDone_eq_false_of_outcome? {x : Execution} (h : x.outcome? = none) :
    x.phase.isDone = false := by
  cases hphase : x.phase with
  | done at_ o =>
    rw [Execution.outcome?, hphase] at h
    cases h
  | _ => rfl

theorem Attended.serve {first e after : Engine} {id : String} {actions : List Action} {a : Action}
    {calls more : List (Callback × Outcome)} {seen shown : List Event} {x y : Execution}
    (h : Attended first id actions calls x) (hrun : Run first actions e seen)
    (happens : Happens e a after shown) (hx : e.execution? id = some x)
    (hy : after.execution? id = some y) (hnone : added id [a] = [])
    (hkeeps : ∀ o, x.outcome? = some o → y.outcome? = some o) (service : Service x y more) :
    Attended first id (actions ++ [a]) (calls ++ more) y := by
  cases h with
  | waiting unended kept nothing =>
    have hgives {o : Outcome} (ho : y.outcome? = some o) : Gives id o e a after := by
      refine ⟨⟨shown, happens⟩, fun z hz => ?_, y, hy, ho⟩
      obtain rfl := Option.some.inj (hx.symm.trans hz)
      exact unended
    cases service with
    | kept same callbacks nothing' =>
      have hundone : y.phase.isDone = false := same.trans (isDone_eq_false_of_outcome? unended)
      cases ho : y.outcome? with
      | none =>
        refine .waiting ho ?_ (by rw [nothing, nothing']; rfl)
        rw [callbacks, kept, added_append, hnone, List.append_nil]
      | some o =>
        refine .ended rfl hrun (hgives ho) ho hundone (callbacks.trans kept) ?_
        rw [nothing, nothing']
        rfl
    | called undone done outcome all =>
      have hlate : added id [] = ([] : List Callback) ++ [] := rfl
      refine .done rfl hrun (hgives outcome) outcome done hlate ?_
      rw [nothing, all, kept]
      simp
  | @ended o before rest b d d' seen' parts run gives outcome undone kept late =>
    have hparts : actions ++ [a] = before ++ b :: (rest ++ [a]) := by simp [parts]
    have hrest : added id (rest ++ [a]) = added id rest := by
      rw [added_append, hnone, List.append_nil]
    cases service with
    | kept same callbacks nothing' =>
      refine .ended hparts run gives (hkeeps o outcome) (same.trans undone) (callbacks.trans kept) ?_
      rw [late, nothing', hrest, List.append_nil]
    | @called o' _ done outcome' all =>
      obtain rfl := Option.some.inj (outcome'.symm.trans (hkeeps o outcome))
      have hlate : added id (rest ++ [a]) = added id rest ++ [] := by rw [hrest, List.append_nil]
      refine .done hparts run gives outcome' done hlate ?_
      rw [late, all, kept]
      simp
  | @done o before rest b d d' seen' between after' parts run gives outcome isDone late all =>
    have hparts : actions ++ [a] = before ++ b :: (rest ++ [a]) := by simp [parts]
    have hrest : added id (rest ++ [a]) = added id rest := by
      rw [added_append, hnone, List.append_nil]
    cases service with
    | kept same callbacks nothing' =>
      refine .done hparts run gives (hkeeps o outcome) (same.trans isDone) (hrest.trans late) ?_
      rw [all, nothing', List.append_nil]
    | called undone =>
      rw [isDone] at undone
      cases undone

theorem Attended.add {first e after : Engine} {id : String} {actions : List Action}
    {calls : List (Callback × Outcome)} {shown : List Event} {x : Execution} {c : Callback}
    {raised : Option String} (h : Attended first id actions calls x) (hx : e.execution? id = some x)
    (done : e.addCallback id c = some (after, shown, raised)) :
    ∃ y, after.execution? id = some y ∧
      Attended first id (actions ++ [.addCallback id c]) (calls ++ calledBack id shown) y := by
  obtain ⟨z, hz, hcases⟩ := callback_of_addCallback done
  obtain rfl := Option.some.inj (hx.symm.trans hz)
  have hself (o : Outcome) : calledBack id [.notified c id o] = [(c, o)] := by
    simp [calledBack, calledBack?]
  obtain ⟨rfl, o, ho, rfl⟩ | ⟨rfl, hunended, rfl⟩ := hcases
  · refine ⟨x, hx, ?_⟩
    rw [hself]
    cases h with
    | waiting unended =>
      rw [unended] at ho
      cases ho
    | @ended o' before rest b d d' seen' parts run gives outcome undone kept late =>
      obtain rfl := Option.some.inj (ho.symm.trans outcome)
      have hparts :
          actions ++ [.addCallback id c] = before ++ b :: (rest ++ [.addCallback id c]) := by
        simp [parts]
      refine .ended hparts run gives ho undone kept ?_
      rw [late, added_append, added_addCallback, List.map_append]
      rfl
    | @done o' before rest b d d' seen' between after' parts run gives outcome isDone late all =>
      obtain rfl := Option.some.inj (ho.symm.trans outcome)
      have hparts :
          actions ++ [.addCallback id c] = before ++ b :: (rest ++ [.addCallback id c]) := by
        simp [parts]
      have hlate : added id (rest ++ [.addCallback id c]) = between ++ (after' ++ [c]) := by
        rw [added_append, added_addCallback, late, List.append_assoc]
      refine .done hparts run gives ho isDone hlate ?_
      rw [all]
      simp
  · refine ⟨_, e.execution?_put_self id _, ?_⟩
    rw [show calledBack id [] = [] from rfl, List.append_nil]
    cases h with
    | waiting unended kept nothing =>
      refine .waiting hunended ?_ nothing
      rw [added_append, added_addCallback, ← kept]
    | ended parts run gives outcome =>
      rw [hunended] at outcome
      cases outcome
    | done parts run gives outcome =>
      rw [hunended] at outcome
      cases outcome

/-- At any point of a run the callbacks of an execution have been looked after. -/
theorem Run.attended {first e : Engine} {actions : List Action} {events : List Event} {id : String}
    (hrun : Run first actions e events) (hfirst : first.execution? id = none) :
    (e.execution? id = none → added id actions = [] ∧ calledBack id events = []) ∧
      ∀ x, e.execution? id = some x → Attended first id actions (calledBack id events) x := by
  induction hrun with
  | rest =>
    refine ⟨fun _ => ⟨rfl, rfl⟩, fun x hx => ?_⟩
    rw [hfirst] at hx
    cases hx
  | @next actions a d after events more before happens ih =>
    obtain ⟨habsent, hpresent⟩ := ih
    by_cases hadd : ∃ c, a = .addCallback id c
    · obtain ⟨c, rfl⟩ := hadd
      cases happens with
      | called done =>
        obtain ⟨x, hx, -⟩ := callback_of_addCallback done
        obtain ⟨y, hy, hattended⟩ := (hpresent x hx).add hx done
        rw [← calledBack_append] at hattended
        refine ⟨fun hnone => ?_, fun z hz => ?_⟩
        · rw [hy] at hnone
          cases hnone
        · obtain rfl := Option.some.inj (hy.symm.trans hz)
          exact hattended
    have hnone : added id [a] = [] := by
      cases a with
      | addCallback other c =>
        have hne : other ≠ id := by
          rintro rfl
          exact hadd ⟨c, rfl⟩
        simp [added, added?, hne]
      | _ => rfl
    cases hx : d.execution? id with
    | some x =>
      obtain ⟨y, hy, hkeeps, hservice⟩ :=
        (happens.serves hx fun c heq => hadd ⟨c, heq⟩).present x hx
      refine ⟨fun hgone => ?_, fun z hz => ?_⟩
      · rw [hy] at hgone
        cases hgone
      · obtain rfl := Option.some.inj (hy.symm.trans hz)
        rw [calledBack_append]
        exact (hpresent x hx).serve before happens hx hy hnone hkeeps hservice
    | none =>
      obtain ⟨hnothing, hsilent⟩ := habsent hx
      have hshown : calledBack id more = [] := happens.calledBack_of_absent hx
      have hadded : added id (actions ++ [a]) = [] := by rw [added_append, hnothing, hnone]; rfl
      have hcalls : calledBack id (events ++ more) = [] := by
        rw [calledBack_append, hsilent, hshown]
        rfl
      refine ⟨fun _ => ⟨hadded, hcalls⟩, fun y hy => ?_⟩
      obtain ⟨m, input, limit, doc, now, deadline, -, -, -, rfl⟩ := happens.starts hx hy
      exact .waiting rfl hadded.symm hcalls

/-- However an execution ends and whatever its callbacks and the store do: in one step it gets its
outcome, with which its status and its states stand for good, and by the time it is done each of its
callbacks has been called once with that outcome. Those that were added before the outcome stood are
called in their order; between them and the outcome, and after them, come those that were added
later. -/
theorem Run.settles_once {registry : Registry} {archive : Option Archive} {retention : Nat}
    {actions : List Action} {e : Engine} {events : List Event}
    (hrun : Run (make registry archive retention) actions e events) {id : String} {x : Execution}
    (hx : e.execution? id = some x) :
    (x.outcome? = none → x.status = .running ∧ x.phase.isDone = false ∧ calledBack id events = [] ∧
      ∀ a after more, Happens e a after more → ∃ y, after.execution? id = some y ∧
        (y.outcome? = none ∧ y.status = .running ∨ ∃ o, y.Settled o)) ∧
    (∀ o, x.outcome? = some o → x.Settled o ∧
      ∀ further after more, Run e further after more →
        ∃ y, after.execution? id = some y ∧ y.Settled o) ∧
    (x.phase.isDone = true → ∃ o, x.Settled o ∧
      ((calledBack id events).map Prod.fst).Perm (added id actions) ∧
      ∃ before a rest d seen d' between late, actions = before ++ a :: rest ∧
        Run (make registry archive retention) before d seen ∧ Gives id o d a d' ∧
        added id rest = between ++ late ∧
        calledBack id events = (between ++ added id before ++ late).map fun c => (c, o)) := by
  have hfresh : (make registry archive retention).execution? id = none := rfl
  have hsettled {d : Engine} {further : List Action} {seen : List Event} {y : Execution}
      (h : Run (make registry archive retention) further d seen) (hy : d.execution? id = some y)
      {o : Outcome} (ho : y.outcome? = some o) : y.Settled o := h.settled hfresh hy ho
  have hattended := (hrun.attended hfresh).2 x hx
  refine ⟨fun hunended => ⟨?_, isDone_eq_false_of_outcome? hunended, ?_, ?_⟩,
    fun o ho => ⟨hsettled hrun hx ho, fun further after more hfurther => ?_⟩, fun hdone => ?_⟩
  · rw [Execution.status, hunended]
    rfl
  · cases hattended with
    | waiting _ _ nothing => exact nothing
    | ended _ _ _ outcome =>
      rw [hunended] at outcome
      cases outcome
    | done _ _ _ outcome =>
      rw [hunended] at outcome
      cases outcome
  · intro a after more happens
    obtain ⟨y, hy, -⟩ := happens.becomes hx
    refine ⟨y, hy, ?_⟩
    cases ho : y.outcome? with
    | none =>
      left
      refine ⟨rfl, ?_⟩
      rw [Execution.status, ho]
      rfl
    | some o => exact .inr ⟨o, hsettled (hrun.next happens) hy ho⟩
  · obtain ⟨y, hy, hoy, -⟩ := hfurther.outcome hx ho
    exact ⟨y, hy, hsettled (hrun.append hfurther) hy hoy⟩
  · cases hattended with
    | waiting unended =>
      rw [isDone_eq_false_of_outcome? unended] at hdone
      cases hdone
    | ended _ _ _ _ undone =>
      rw [undone] at hdone
      cases hdone
    | @done o before rest a d d' seen between late parts run gives outcome _ added_rest all =>
      refine ⟨o, hsettled hrun hx outcome, ?_, before, a, rest, d, seen, d', between, late, parts, run,
        gives, added_rest, all⟩
      have hfst (cs : List Callback) : (cs.map fun c => (c, o)).map Prod.fst = cs := by
        rw [List.map_map]
        exact List.map_id cs
      have hlate : added id (a :: rest) = between ++ late := by
        rw [← List.singleton_append, added_append, gives.added, added_rest]
        rfl
      rw [all, hfst, parts, added_append, hlate, ← List.append_assoc]
      exact List.perm_append_comm.append_right late

def withCallback (id : String) (c : Callback) (run : List Action × Engine × List Event) :
    Option (List Action × Engine × List Event) :=
  (run.2.1.addCallback id c).map fun (e, events, _) =>
    (run.1 ++ [.addCallback id c], e, run.2.2 ++ events)

def goOn (now : Instant) (choices : List Choice) (run : List Action × Engine × List Event) :
    Option (List Action × Engine × List Event) :=
  (perform now choices run.2.1).map fun (actions, e, events) =>
    (run.1 ++ actions, e, run.2.2 ++ events)

theorem Run.of_withCallback {first : Engine} {run next : List Action × Engine × List Event} {id : String}
    {c : Callback} (hrun : Run first run.1 run.2.1 run.2.2) (h : withCallback id c run = some next) :
    Run first next.1 next.2.1 next.2.2 := by
  obtain ⟨⟨e, events, raised⟩, hadd, rfl⟩ := Option.map_eq_some_iff.1 h
  exact hrun.next (.called hadd)

theorem Run.of_goOn {first : Engine} {run next : List Action × Engine × List Event} {now : Instant}
    {choices : List Choice} (hrun : Run first run.1 run.2.1 run.2.2)
    (h : goOn now choices run = some next) : Run first next.1 next.2.1 next.2.2 := by
  obtain ⟨⟨actions, e, events⟩, hperform, rfl⟩ := Option.map_eq_some_iff.1 h
  exact hrun.perform hperform

/-- Two callbacks are added to an execution before it ends, one between its outcome and the
refusal of its last record, and one when it is done; two of them raise. -/
def heard : Option (List Action × Engine × List Event) := do
  let run ← performNew ⟨0⟩ "h" (.mk "Rest" [("Rest", .succeed)] "") (.dict []) (.int 60)
    [.move .write, .move (.begin "h")] (make ⟨[]⟩ (some ⟨.empty .usual, fun _ => true⟩) 0)
  let run ← withCallback "h" ⟨"first", some "OSError"⟩ run
  let run ← withCallback "h" ⟨"second", none⟩ run
  let run ← goOn ⟨1⟩ [.move (.chain "h" [] .enter), .move .write, .move (.settle "h")] run
  let run ← withCallback "h" ⟨"third", some "OSError"⟩ run
  let run ← goOn ⟨2⟩ [.move .write, .move (.release "h")] run
  withCallback "h" ⟨"fourth", none⟩ run

theorem run_heard {actions : List Action} {e : Engine} {events : List Event}
    (h : heard = some (actions, e, events)) :
    Run (make ⟨[]⟩ (some ⟨.empty .usual, fun _ => true⟩) 0) actions e events := by
  unfold heard at h
  obtain ⟨first, hfirst, h⟩ := Option.bind_eq_some_iff.1 h
  obtain ⟨second, hsecond, h⟩ := Option.bind_eq_some_iff.1 h
  obtain ⟨third, hthird, h⟩ := Option.bind_eq_some_iff.1 h
  obtain ⟨fourth, hfourth, h⟩ := Option.bind_eq_some_iff.1 h
  obtain ⟨fifth, hfifth, h⟩ := Option.bind_eq_some_iff.1 h
  obtain ⟨sixth, hsixth, h⟩ := Option.bind_eq_some_iff.1 h
  have hfresh : (make ⟨[]⟩ (some ⟨.empty .usual, fun _ => true⟩) 0).execution? "h" = none := rfl
  have hrun := Run.of_performNew hfresh hfirst
  exact (((((hrun.of_withCallback hsecond).of_withCallback hthird).of_goOn hfourth).of_withCallback
    hfifth).of_goOn hsixth).of_withCallback h

theorem settles_once_heard :
    ∃ actions e events x o, heard = some (actions, e, events) ∧ e.execution? "h" = some x ∧
      x.phase.isDone = true ∧ x.Settled o ∧
      ((calledBack "h" events).map Prod.fst).Perm (added "h" actions) ∧
      (calledBack "h" events).map (fun n => n.1.name) = ["third", "first", "second", "fourth"] := by
  have hcomputed : heard.any (fun run =>
      (run.2.1.execution? "h").any (fun x => x.phase.isDone) &&
        (calledBack "h" run.2.2).map (fun n => n.1.name) == ["third", "first", "second", "fourth"]) =
      true := by decide +kernel
  obtain ⟨⟨actions, e, events⟩, hsome, hrest⟩ := (Option.any_eq_true _ _).1 hcomputed
  obtain ⟨hany, hnames⟩ := Bool.and_eq_true_iff.1 hrest
  obtain ⟨x, hx, hdone⟩ := (Option.any_eq_true _ _).1 hany
  obtain ⟨-, -, hends⟩ := (run_heard hsome).settles_once hx
  obtain ⟨o, hsettled, hperm, -⟩ := hends hdone
  exact ⟨actions, e, events, x, o, hsome, hx, hdone, hsettled, hperm, eq_of_beq hnames⟩

end ReminderFlow.Engine
