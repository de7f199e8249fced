import ReminderFlow.Proofs.Engine.Moves

namespace ReminderFlow

/-- Begun with the machine and the input, the main chain has become `c` and shown the events. -/
def Execution.Runs (r : Registry) (x : Execution) (seen : List Chain.Event) (c : Chain) : Prop :=
  Chain.Course r.contains r.MayReply "" (.ready x.machine x.machine.start x.input) seen c

namespace Engine

/-- How an execution stands. It ends with its main chain, or it is cut off before. -/
inductive Story (r : Registry) (mayCut : Prop) (x : Execution) (seen : List Chain.Event) : Prop where
  | scheduled (phase : x.phase = .scheduled) (nothing : seen = [])
  | running {c : Chain} (phase : x.phase = .running c) (course : x.Runs r seen c)
  | settled {at_ : Instant} {outcome : Outcome} {result : Except Failure Document}
      (ending : x.phase.end? = some (at_, outcome))
      (told : Outcome.ofResult? x.deadline result = some outcome)
      (course : x.Runs r seen (.ended result))
  | cut {at_ : Instant} {outcome : Outcome} {c : Chain} {before : List Chain.Event}
      (ending : x.phase.end? = some (at_, outcome)) (allowed : mayCut)
      (how : outcome = .timedOut x.deadline ∨ outcome = .cancelled)
      (course : x.Runs r before c) (left : seen = before ++ c.abandon "")

theorem Story.mono {r : Registry} {p q : Prop} {x : Execution} {seen : List Chain.Event}
    (h : Story r p x seen) (hpq : p → q) : Story r q x seen := by
  cases h with
  | scheduled phase nothing => exact .scheduled phase nothing
  | running phase course => exact .running phase course
  | settled ending told course => exact .settled ending told course
  | cut ending allowed how course left => exact .cut ending (hpq allowed) how course left

/-- Only a running execution has a chain to go on with. -/
theorem Story.runs {r : Registry} {p : Prop} {x : Execution} {seen : List Chain.Event} {c : Chain}
    (h : Story r p x seen) (hx : x.phase = .running c) : x.Runs r seen c := by
  cases h with
  | running phase course =>
    rw [hx] at phase
    cases phase
    exact course
  | scheduled phase => simp [hx] at phase
  | settled ending => simp [hx, Phase.end?] at ending
  | cut ending => simp [hx, Phase.end?] at ending

/-- The story goes on as it was when only the rest of the execution changes. -/
theorem Story.congr {r : Registry} {p : Prop} {x y : Execution} {seen : List Chain.Event}
    (h : Story r p x seen) (hm : y.machine = x.machine) (hi : y.input = x.input)
    (hd : y.deadline = x.deadline) (hp : y.phase = x.phase) : Story r p y seen := by
  cases h with
  | scheduled phase nothing => exact .scheduled (hp.trans phase) nothing
  | running phase course =>
    exact .running (hp.trans phase) (by rwa [Execution.Runs, hm, hi])
  | settled ending told course =>
    exact .settled (by rw [hp]; exact ending) (by rwa [hd]) (by rwa [Execution.Runs, hm, hi])
  | cut ending allowed how course left =>
    exact .cut (by rw [hp]; exact ending) allowed (by rwa [hd]) (by rwa [Execution.Runs, hm, hi]) left

/-- If the engine does not have the execution then nothing has become of it, and otherwise its story
has gone on; with `cut` it may have been cut off. -/
structure Carries (cut : Prop) (id : String) (e after : Engine) (more : List Event) : Prop where
  registry : after.registry = e.registry
  absent : e.execution? id = none → after.execution? id = none ∧ chainEvents id more = []
  story : ∀ x p seen, e.execution? id = some x → Story e.registry p x seen →
    ∃ y, after.execution? id = some y ∧ y.machine = x.machine ∧ y.input = x.input ∧
      Story e.registry (p ∨ cut) y (seen ++ chainEvents id more)

/-- The stories of all executions have gone on; `cuts` are those that may have been cut off. -/
def Keeps (cuts : String → Prop) (e after : Engine) (more : List Event) : Prop :=
  ∀ id, Carries (cuts id) id e after more

theorem Carries.of_same {cut : Prop} {id : String} {e after : Engine} {more : List Event}
    (hx : after.execution? id = e.execution? id) (hr : after.registry = e.registry)
    (hs : chainEvents id more = []) : Carries cut id e after more := by
  refine ⟨hr, fun h => ⟨hx.trans h, hs⟩, fun x p seen h hstory => ?_⟩
  refine ⟨x, hx.trans h, rfl, rfl, ?_⟩
  rw [hs, List.append_nil]
  exact hstory.mono .inl

theorem Keeps.of_same {cuts : String → Prop} {e after : Engine} {more : List Event}
    (hx : after.executions = e.executions) (hr : after.registry = e.registry)
    (hs : ∀ id, chainEvents id more = []) : Keeps cuts e after more := by
  intro id
  exact .of_same (by rw [execution?, hx, execution?]) hr (hs id)

/-- One execution changes and the others stay as they are. -/
theorem Keeps.of_put {cuts : String → Prop} {e after : Engine} {more : List Event} {id : String}
    {x y : Execution} (hx : e.execution? id = some x)
    (ha : after.executions = (e.put id y).executions) (hr : after.registry = e.registry)
    (hm : y.machine = x.machine) (hi : y.input = x.input)
    (hs : ∀ other, other ≠ id → chainEvents other more = [])
    (hstory : ∀ p seen, Story e.registry p x seen →
      Story e.registry (p ∨ cuts id) y (seen ++ chainEvents id more)) : Keeps cuts e after more := by
  intro other
  have hput : after.execution? other = (e.put id y).execution? other := by
    rw [execution?, ha, execution?]
  by_cases heq : other = id
  · subst heq
    refine ⟨hr, fun hnone => ?_, fun z p seen hz h => ?_⟩
    · rw [hx] at hnone
      cases hnone
    · obtain rfl := Option.some.inj (hx.symm.trans hz)
      exact ⟨y, hput.trans (e.execution?_put_self other y), hm, hi, hstory p seen h⟩
  · exact .of_same (hput.trans (e.execution?_put_of_ne heq y)) hr (hs other heq)

theorem settle_spec (e : Engine) (now : Instant) (id : String) (x : Execution) (outcome : Outcome)
    (left : List Chain.Event) (crash : Option Fault) :
    let y := { x with states := [], phase := .finishing now outcome }
    (e.settle now id x outcome left crash).1.executions = (e.put id y).executions ∧
      (e.settle now id x outcome left crash).1.registry = e.registry ∧
      ∀ other, chainEvents other (e.settle now id x outcome left crash).2 =
        chainEvents other (left.map (.chain id)) := by
  intro y
  obtain ⟨hx, hr, hs⟩ := (e.put id y).persist_spec (y.record? id now)
  refine ⟨hx, hr, fun other => ?_⟩
  have hrest : chainEvents other
      (.settled id outcome crash :: ((e.put id y).persist (y.record? id now)).2) = [] :=
    hs.chainEvents other
  rw [settle, chainEvents_append, hrest, List.append_nil]

/-- An execution that is running is cut off, and its branches are left. -/
theorem keeps_of_cut {cuts : String → Prop} {e : Engine} {id : String} {x : Execution} {c : Chain}
    {outcome : Outcome} (hx : e.execution? id = some x) (hc : x.phase = .running c)
    (how : outcome = .timedOut x.deadline ∨ outcome = .cancelled) (hcut : cuts id) (now : Instant) :
    Keeps cuts e (e.settle now id x outcome (c.abandon "") none).1
      (e.settle now id x outcome (c.abandon "") none).2 := by
  obtain ⟨ha, hr, hs⟩ := e.settle_spec now id x outcome (c.abandon "") none
  refine Keeps.of_put hx ha hr rfl rfl (fun other hne => ?_) (fun p seen h => ?_)
  · rw [hs, chainEvents_chain_of_ne hne.symm]
  · rw [hs, chainEvents_chain_self]
    exact .cut rfl (.inr hcut) how (h.runs hc) rfl

theorem notes_release (e : Engine) (id : String) (x : Execution) (at_ : Instant)
    (outcome : Outcome) : Notes (e.release id x at_ outcome).2 := by
  intro event hevent
  rcases List.mem_cons.1 hevent with rfl | hevent
  · trivial
  · obtain ⟨c, -, hevent⟩ := List.mem_flatMap.1 hevent
    rcases List.mem_cons.1 hevent with rfl | hevent
    · trivial
    · obtain ⟨report, -, rfl⟩ := List.mem_map.1 hevent
      trivial

theorem notes_withdraw (e : Engine) (id : String) : Notes (e.withdraw id).2 := by
  intro event hevent
  obtain ⟨r, -, rfl⟩ := List.mem_map.1 hevent
  trivial

theorem Moves.keeps {e after : Engine} {now : Instant} {move : Move} {events : List Event}
    (honest : e.Honest move) (done : Moves e now move after events) :
    Keeps (fun id => (Action.move now move).Cuts id) e after events := by
  cases done with
  | begin found hphase =>
    refine Keeps.of_put found rfl rfl rfl rfl (fun _ _ => rfl) (fun p seen hstory => ?_)
    cases hstory with
    | scheduled phase nothing =>
      subst nothing
      exact .running rfl (.rest _)
    | running phase course => simp [hphase] at phase
    | settled ending => simp [hphase, Phase.end?] at ending
    | cut ending => simp [hphase, Phase.end?] at ending
  | @chain id address move x y c next seen d _ found hphase made followed =>
    obtain ⟨hex, hr, ⟨states, hstates⟩, hs⟩ :=
      e.follow_spec now id { x with phase := .running next } seen
    rw [followed] at hex hr hstates hs
    obtain rfl : y = { x with phase := .running next, states := states } := hstates
    refine Keeps.of_put found (y := { x with phase := .running next, states := states }) ?_ hr rfl rfl
      (fun other hne => ?_) (fun p before hstory => ?_)
    · rw [put, put, hex]
    · rw [hs, chainEvents_chain_of_ne hne.symm]
    · rw [hs, chainEvents_chain_self]
      exact .running rfl ((hstory.runs hphase).concat (honest x c found hphase) made)
  | @settle id x r _ outcome _ found hphase told settled =>
    obtain ⟨ha, hr, hs⟩ := e.settle_spec now id x outcome [] (crash? r)
    rw [settled] at ha hr hs
    refine Keeps.of_put found ha hr rfl rfl (fun other _ => hs other) (fun p seen hstory => ?_)
    rw [hs, show chainEvents id (List.map (.chain id) []) = [] from rfl, List.append_nil]
    exact .settled rfl told (hstory.runs hphase)
  | @expire id x c _ _ found hphase unended suspended settled =>
    have hcut : (fun other => (Action.move now (.expire id)).Cuts other) id := rfl
    have hkeeps := keeps_of_cut found hphase (.inl rfl) hcut now
    rwa [settled] at hkeeps
  | @cancel id x c _ _ found hphase closed unended suspended settled =>
    have hcut : (fun other => (Action.move now (.cancel id)).Cuts other) id := rfl
    have hkeeps := keeps_of_cut found hphase (.inr rfl) hcut now
    rwa [settled] at hkeeps
  | @withdraw id x _ _ found hphase closed unwritten =>
    exact .of_same rfl rfl (e.notes_withdraw id).chainEvents
  | write first archive => exact .of_same rfl rfl fun _ => rfl
  | @release id x at_ outcome found hphase gone =>
    have hnotes := e.notes_release id x at_ outcome
    refine Keeps.of_put found rfl rfl rfl rfl (fun other _ => hnotes.chainEvents other)
      (fun p seen hstory => ?_)
    rw [hnotes.chainEvents, List.append_nil]
    cases hstory with
    | scheduled phase => simp [hphase] at phase
    | running phase => simp [hphase] at phase
    | settled ending told course =>
      exact .settled (by simpa [hphase, Phase.end?] using ending) told course
    | cut ending allowed how course left =>
      exact .cut (by simpa [hphase, Phase.end?] using ending) (.inl allowed) how course left

theorem addCallback_keeps {cuts : String → Prop} {e after : Engine} {id : String}
    {callback : Callback} {events : List Event} {raised : Option String}
    (done : e.addCallback id callback = some (after, events, raised)) :
    Keeps cuts e after events := by
  obtain ⟨x, hx, ⟨rfl, outcome, -, rfl⟩ | ⟨rfl, -, rfl⟩⟩ := callback_of_addCallback done
  · exact .of_same rfl rfl fun _ => rfl
  · refine Keeps.of_put hx rfl rfl rfl rfl (fun _ _ => rfl) (fun p seen hstory => ?_)
    rw [show chainEvents id [] = [] from rfl, List.append_nil]
    exact (hstory.mono .inl).congr rfl rfl rfl rfl

/-- An execution has been started with this machine and input. -/
def Started (actions : List Action) (id : String) (x : Execution) : Prop :=
  ∃ now input limit passed, .start now id (some x.machine) input limit passed ∈ actions ∧
    Document.ofDatum input = .ok x.input

/-- What is to be told of one execution, whether it has been started or not. -/
structure Told (first e : Engine) (actions : List Action) (events : List Event) (id : String) :
    Prop where
  silent : e.execution? id = none → chainEvents id events = []
  started : ∀ x, e.execution? id = some x → Started actions id x
  story : ∀ x, e.execution? id = some x →
    Story first.registry (∃ a ∈ actions, a.Cuts id) x (chainEvents id events)

theorem Told.keep {first e after : Engine} {actions : List Action} {events more : List Event}
    {id : String} {a : Action} (hr : e.registry = first.registry)
    (h : Told first e actions events id) (carries : Carries (a.Cuts id) id e after more) :
    Told first after (actions ++ [a]) (events ++ more) id := by
  cases hx : e.execution? id with
  | none =>
    obtain ⟨ha, hs⟩ := carries.absent hx
    refine ⟨fun _ => ?_, fun y hy => ?_, fun y hy => ?_⟩
    · rw [chainEvents_append, h.silent hx, hs]
      rfl
    · rw [ha] at hy
      cases hy
    · rw [ha] at hy
      cases hy
  | some x =>
    obtain ⟨y, hy, hm, hi, hstory⟩ := carries.story x _ _ hx (hr ▸ h.story x hx)
    obtain ⟨now, input, limit, passed, hmem, hinput⟩ := h.started x hx
    refine ⟨fun hnone => ?_, fun z hz => ?_, fun z hz => ?_⟩
    · rw [hy] at hnone
      cases hnone
    · obtain rfl := Option.some.inj (hy.symm.trans hz)
      refine ⟨now, input, limit, passed, ?_, hi ▸ hinput⟩
      rw [hm]
      exact List.mem_append_left _ hmem
    · obtain rfl := Option.some.inj (hy.symm.trans hz)
      rw [chainEvents_append, ← hr]
      refine hstory.mono ?_
      rintro (⟨b, hb, hcuts⟩ | hcuts)
      · exact ⟨b, List.mem_append_left _ hb, hcuts⟩
      · exact ⟨a, by simp, hcuts⟩

/-- A new execution is scheduled, and the others are as they were. -/
theorem Told.start {first e after : Engine} {actions : List Action} {events more : List Event}
    {id other : String} {now : Instant} {machine : Option Machine} {input limit : Datum}
    (hr : e.registry = first.registry) (h : Told first e actions events id)
    (fresh : e.execution? other = none) {m : Machine} {doc : Document} {deadline : Instant}
    (prepared : prepare now machine input limit = .ok (m, doc, deadline))
    (done : e.register now other m doc deadline = (after, more)) (passed : Bool) :
    Told first after (actions ++ [.start now other machine input limit passed]) (events ++ more)
      id := by
  obtain ⟨rfl, hdoc, -⟩ := prepare_eq prepared
  obtain ⟨hx, hreg, hs⟩ := register_spec done
  have hput : after.execution? id =
      (e.put other ⟨m, doc, now, deadline, [], .scheduled, []⟩).execution? id := by
    rw [execution?, hx, execution?]
  by_cases hid : id = other
  · subst hid
    have hself := hput.trans (e.execution?_put_self id _)
    have hseen : chainEvents id (events ++ more) = [] := by
      rw [chainEvents_append, h.silent fresh, hs.chainEvents]
      rfl
    refine ⟨fun _ => hseen, fun x hx => ?_, fun x hx => ?_⟩
    · obtain rfl := Option.some.inj (hself.symm.trans hx)
      exact ⟨now, input, limit, passed, by simp, hdoc⟩
    · obtain rfl := Option.some.inj (hself.symm.trans hx)
      exact .scheduled rfl hseen
  · exact h.keep hr (.of_same (hput.trans (e.execution?_put_of_ne hid _)) hreg (hs.chainEvents id))

/-- At any point of a run from an engine that does not have the execution yet, its story can be
told. -/
theorem Run.told {first e : Engine} {actions : List Action} {events : List Event} {id : String}
    (hrun : Run first actions e events) (hfirst : first.execution? id = none) :
    e.registry = first.registry ∧ Told first e actions events id := by
  induction hrun with
  | rest =>
    refine ⟨rfl, fun _ => rfl, fun x hx => ?_, fun x hx => ?_⟩ <;> rw [hfirst] at hx <;> cases hx
  | @next actions a e after events more before happens ih =>
    obtain ⟨hr, told⟩ := ih
    cases happens with
    | started fresh prepared done =>
      obtain ⟨-, hreg, -⟩ := register_spec done
      exact ⟨hreg.trans hr, told.start hr fresh prepared done _⟩
    | refused => exact ⟨hr, told.keep hr (.of_same rfl rfl rfl)⟩
    | moved honest done =>
      have hkeeps := (moves_of_step done).keeps honest id
      exact ⟨hkeeps.registry.trans hr, told.keep hr hkeeps⟩
    | called done =>
      have hkeeps : Keeps (fun _ => False) _ _ _ := addCallback_keeps done
      exact ⟨(hkeeps id).registry.trans hr, told.keep hr (hkeeps id)⟩
    | closed => exact ⟨hr, told.keep hr (.of_same rfl rfl rfl)⟩
    | stopped => exact ⟨hr, told.keep hr (.of_same rfl rfl rfl)⟩

end Engine

end ReminderFlow
