import ReminderFlow.Proofs.Machine.Accepted
import ReminderFlow.Proofs.Run.Course
import ReminderFlow.Proofs.Run.Fault

namespace ReminderFlow

/-- The successor is the name of a state, or there is none. -/
def Machine.Continues (m : Machine) (next : Value) : Prop :=
  next = .null ∨ ∃ name ∈ m.names, next = .str name

namespace Chain

/-- The machine has been accepted, and the state leads to another one or to the end. -/
def SoundStop (stop : Stop) : Prop := stop.machine.Accepted ∧ stop.machine.Continues stop.next

/-- Every chain in the tree is in an accepted machine, at a state that is there, or has ended in a way
that is allowed. -/
inductive Sound : Chain → Prop
  | created {m : Machine} {doc : Document} (accepted : m.Accepted) : Sound (created m doc)
  | ready {m : Machine} {name : String} {doc : Document} (accepted : m.Accepted)
      (known : name ∈ m.names) : Sound (ready m name doc)
  | waiting {stop : Stop} {seconds : Number} (here : SoundStop stop) : Sound (waiting stop seconds)
  | working {stop : Stop} {call : Call} {started : Bool} (here : SoundStop stop)
      (output : call.outputPath.IsPath) : Sound (working stop call started)
  | forked {stop : Stop} {branches : List Chain} (here : SoundStop stop)
      (each : ∀ c ∈ branches, Sound c) : Sound (forked stop branches)
  | ended {result : Except Failure Document} (allowed : ∀ f, result = .error f → f.Allowed) :
      Sound (ended result)

theorem sound_ended_ok (doc : Document) : Sound (.ended (.ok doc)) := by
  refine .ended fun f hf => ?_
  cases hf

theorem sound_fail {f : Failure} (h : f.Allowed) : Sound (fail f) := by
  refine .ended fun g hg => ?_
  cases hg
  exact h

theorem sound_follow {m : Machine} (h : m.Accepted) {next : Value} (hnext : m.Continues next)
    (doc : Document) : Sound (follow m next doc) ∧ ∀ f, follow m next doc ≠ .ended (.error f) := by
  rcases hnext with rfl | ⟨name, hname, rfl⟩
  · exact ⟨sound_ended_ok doc, by simp [follow, Value.isNull]⟩
  · exact ⟨.ready h hname, by simp [follow, Value.isNull, jump]⟩

/-- What a chain crashes by in a move that joins no branches: a wait for a time that is no double, a
wait for something that cannot be shown, and what an executor gave that cannot be told. -/
inductive Provokes : Chain → Move → Crash → Prop where
  | tooLong {m : Machine} {name : String} {doc : Document} {secondsPath seconds next : Value}
      (here : m.state? name = some (.wait secondsPath seconds next))
      (long : LongWait doc secondsPath seconds) :
      Provokes (ready m name doc) .enter .numberTooLarge
  | unshown {m : Machine} {name : String} {doc : Document} {secondsPath seconds next v : Value}
      {fault : Fault} (here : m.state? name = some (.wait secondsPath seconds next))
      (aimless : AimlessWait doc secondsPath seconds v) (shown : v.describe = .error fault) :
      Provokes (ready m name doc) .enter (.outside fault)
  | raised {stop : Stop} {call : Call} {given fault : Fault} (told : given.cause = .error fault) :
      Provokes (working stop call true) (.reply (.error given)) (.outside fault)
  | returned {stop : Stop} {call : Call} {output : Datum} {e : Incompatible} {fault : Fault}
      (refuses : stop.document.set (Datum.ofValue call.outputPath) output = .error (.incompatible e))
      (told : refused call.executor e.fault = .crash (.outside fault)) :
      Provokes (working stop call true) (.reply (.ok output)) (.outside fault)

theorem sound_take {stop : Stop} {call : Call} (here : SoundStop stop)
    (output : call.outputPath.IsPath) (reply : Except Fault Datum) :
    Sound (take stop call reply) ∧ ∀ k, take stop call reply = .ended (.error (.crash k)) →
      (working stop call true).Provokes (.reply reply) k := by
  cases reply with
  | error given =>
    rw [take]
    obtain ⟨cause, -, hfailed⟩ | ⟨fault, htold, hfailed⟩ := failed_cases call.executor given
    · rw [hfailed]
      exact ⟨sound_fail (.inl trivial), by simp [fail]⟩
    · rw [hfailed]
      refine ⟨sound_fail (Failure.allowed_outside fault), fun k hk => ?_⟩
      cases hk
      exact .raised htold
  | ok d =>
    rw [take]
    split
    · rename_i doc _
      obtain ⟨hsound, hfine⟩ := sound_follow here.1 here.2 doc
      exact ⟨hsound, fun k hk => absurd hk (hfine _)⟩
    · rename_i f hf
      obtain ⟨p, rfl⟩ | ⟨e, hset, rfl⟩ := store_error output hf
      · exact ⟨sound_fail (.inl trivial), by simp [fail]⟩
      · obtain ⟨cause, hrefused⟩ | ⟨fault, hrefused⟩ := refused_cases call.executor e.fault
        · rw [hrefused]
          exact ⟨sound_fail (.inl trivial), by simp [fail]⟩
        · rw [hrefused]
          refine ⟨sound_fail (Failure.allowed_outside fault), fun k hk => ?_⟩
          cases hk
          exact .returned hset hrefused

theorem continues_of_successor {m : Machine} (h : m.LocallyWellFormed) {name : String}
    {s : State} (hs : m.state? name = some s) {v : Value} (hv : v ∈ s.successors) :
    ∃ target ∈ m.names, v = .str target :=
  h.targets _ (Machine.mem_states_of_state? hs) v hv

theorem continues_next {m : Machine} (h : m.LocallyWellFormed) {name : String} {s : State}
    (hs : m.state? name = some s) : m.Continues s.next := by
  by_cases hnull : s.next = .null
  · exact .inl hnull
  · right
    apply continues_of_successor h hs
    have hnot : s.next.isNull = false := Value.isNull_eq_false_iff.2 hnull
    cases s with
    | choice => exact absurd rfl hnull
    | _ => simp [State.successors, State.someUnlessNull, hnot]

/-- A choice goes on to one of its successors. -/
theorem mem_successors {doc : Document} {default target : Value} {rules : List Rule}
    (hdefault : default ≠ .null) (h : choose doc default rules = .ok target) :
    target ∈ (State.choice rules default).successors := by
  have hnot : default.isNull = false := Value.isNull_eq_false_iff.2 hdefault
  rw [State.successors, List.mem_append]
  rcases mem_of_choose h with rfl | ⟨r, hr, rfl⟩
  · right
    simp [State.someUnlessNull, hnot]
  · exact .inl (List.mem_map_of_mem hr)

/-- Entering a state of an accepted machine. -/
theorem sound_enterState {knows : String → Bool} {m : Machine} (h : m.Accepted) {name : String}
    {s : State} (hs : m.state? name = some s) (doc : Document) :
    Sound (enterState knows m name doc s) ∧
      ∀ k, enterState knows m name doc s = .ended (.error (.crash k)) →
        (ready m name doc).Provokes .enter k := by
  have hlocal := h.locallyWellFormed
  have hmem := Machine.mem_states_of_state? hs
  have hfields : s.WellFormed := hlocal.fields _ hmem
  have hparts := h.parts _ hmem
  have hnext := continues_next hlocal hs
  cases s with
  | succeed => exact ⟨sound_ended_ok doc, by simp [enterState]⟩
  | fail cause error => exact ⟨sound_fail (.inl trivial), by simp [enterState, fail]⟩
  | pass next =>
    obtain ⟨hsound, hfine⟩ := sound_follow h hnext doc
    exact ⟨hsound, fun c hc => absurd hc (hfine _)⟩
  | choice rules default =>
    obtain ⟨-, hdefault, hrules⟩ := hfields
    rw [enterState]
    split
    · rename_i target htarget
      obtain ⟨t, ht, rfl⟩ := continues_of_successor hlocal hs (mem_successors hdefault htarget)
      exact ⟨.ready h ht, by simp [jump]⟩
    · rename_i f hf
      obtain ⟨p, rfl⟩ := choose_error hrules hf
      exact ⟨sound_fail (.inl trivial), by simp [fail]⟩
  | wait secondsPath seconds next =>
    rw [enterState]
    split
    · exact ⟨.waiting ⟨h, hnext⟩, by simp⟩
    · rename_i f hf
      rcases waitTime_error hfields hf with ⟨p, rfl⟩ | ⟨v, haimless, rfl⟩ | ⟨rfl, hlong⟩
      · exact ⟨sound_fail (.inl trivial), by simp [fail]⟩
      · obtain ⟨shown, -, hshown⟩ | ⟨fault, hfault, hshown⟩ := Failure.showing_cases .duration v
        · rw [hshown]
          exact ⟨sound_fail (.inl trivial), by simp [fail]⟩
        · rw [hshown]
          refine ⟨sound_fail (Failure.allowed_outside fault), fun k hk => ?_⟩
          cases hk
          exact .unshown hs haimless hfault
      · refine ⟨sound_fail (.inr (.inl rfl)), fun k hk => ?_⟩
        cases hk
        exact .tooLong hs hlong
  | task resource inputPath outputPath next =>
    obtain ⟨-, hinput, houtput⟩ := hfields
    rw [enterState]
    split
    · rename_i call hcall
      exact ⟨.working ⟨h, hnext⟩ (outputPath_of_taskCall hcall ▸ houtput), by simp⟩
    · rename_i f hf
      obtain ⟨id, rfl⟩ := hparts
      obtain ⟨p, rfl⟩ | ⟨-, rfl⟩ := taskCall_error hinput hf
      · exact ⟨sound_fail (.inl trivial), by simp [fail]⟩
      · have hshown : Failure.showing .unknownExecutor (.str id) = .unknownExecutor (Text.quote id) :=
          Failure.showing_of_ok rfl
        rw [hshown]
        exact ⟨sound_fail (.inl trivial), by simp [fail]⟩
  | parallel branches strays next =>
    refine ⟨.forked ⟨h, hnext⟩ fun c hc => ?_, by simp [enterState]⟩
    obtain ⟨b, hb, rfl⟩ := List.mem_map.1 hc
    exact .created (hparts b hb)

/-- Branches fail together only if one of them does. -/
theorem joined_error {results : List (Except Failure Document)} {f : Failure}
    (h : joined results = .error f) : .error f ∈ results := by
  have hmap : results.mapM id = .error f := by
    cases hm : results.mapM id with
    | ok docs =>
      rw [joined, hm] at h
      cases h
    | error g =>
      rw [joined, hm] at h
      cases h
      rfl
  clear h
  induction results with
  | nil => cases hmap
  | cons r rest ih =>
    rw [List.mapM_cons] at hmap
    cases r with
    | error g =>
      cases hmap
      exact List.mem_cons_self
    | ok doc =>
      apply List.mem_cons_of_mem
      apply ih
      cases hrest : rest.mapM id with
      | error g =>
        simp only [id, hrest, bind, Except.bind] at hmap
        cases hmap
        rfl
      | ok docs => simp [id, hrest, bind, Except.bind, pure, Except.pure] at hmap

theorem mem_of_results {branches : List Chain} {results : List (Except Failure Document)}
    (h : branches.mapM result? = some results) {r : Except Failure Document} (hr : r ∈ results) :
    .ended r ∈ branches := by
  induction branches generalizing results with
  | nil =>
    cases h
    simp at hr
  | cons c rest ih =>
    simp only [List.mapM_cons, Option.bind_eq_bind, Option.pure_def, Option.bind_eq_some_iff] at h
    obtain ⟨first, hfirst, more, hmore, heq⟩ := h
    obtain rfl := Option.some.inj heq
    rcases List.mem_cons.1 hr with rfl | hr
    · cases c with
      | ended r' =>
        cases hfirst
        exact List.mem_cons_self
      | _ => cases hfirst
    · exact List.mem_cons_of_mem c (ih hmore hr)

/-- A crash that a move makes is one that the chain provokes, or comes from a branch. -/
def Excused (d : Chain) (move : Move) (k : Crash) : Prop :=
  d.Provokes move k ∨
    (move = .join ∧ ∃ stop branches, d = forked stop branches ∧ .ended (.error (.crash k)) ∈ branches)

theorem sound_move? {knows : String → Bool} {branch : String} {move : Move} {d next : Chain}
    {events : List Event} (h : d.Sound) (hmove : move? knows branch move d = some (next, events)) :
    next.Sound ∧ ∀ k, next = .ended (.error (.crash k)) → d.Excused move k := by
  unfold move? at hmove
  split at hmove
  case h_1 m doc =>
    cases hmove
    cases h with
    | created accepted => exact ⟨.ready accepted accepted.locallyWellFormed.start, by simp⟩
  case h_2 m name doc =>
    cases h with
    | ready accepted known =>
      obtain ⟨s, hs⟩ := Machine.exists_state?_of_mem_names known
      rw [hs] at hmove
      cases hmove
      obtain ⟨hsound, hcrash⟩ := sound_enterState accepted hs doc
      exact ⟨hsound, fun k hk => .inl (hcrash k hk)⟩
  case h_3 stop seconds =>
    cases hmove
    cases h with
    | waiting here =>
      obtain ⟨hsound, hfine⟩ := sound_follow here.1 here.2 stop.document
      exact ⟨hsound, fun c hc => absurd hc (hfine _)⟩
  case h_4 stop call =>
    cases hmove
    cases h with
    | working here output => exact ⟨.working here output, by simp⟩
  case h_5 reply stop call =>
    cases hmove
    cases h with
    | working here output =>
      obtain ⟨hsound, hcrash⟩ := sound_take here output reply
      exact ⟨hsound, fun k hk => .inl (hcrash k hk)⟩
  case h_6 stop branches =>
    obtain ⟨results, hresults, hnext⟩ := Option.map_eq_some_iff.1 hmove
    cases h with
    | forked here each =>
      split at hnext
      · rename_i doc _
        cases hnext
        obtain ⟨hsound, hfine⟩ := sound_follow here.1 here.2 doc
        exact ⟨hsound, fun c hc => absurd hc (hfine _)⟩
      · rename_i f hf
        cases hnext
        have hmem := mem_of_results hresults (joined_error hf)
        have hallowed : f.Allowed := by
          cases each _ hmem with
          | ended allowed => exact allowed f rfl
        refine ⟨sound_fail hallowed, fun k hk => ?_⟩
        cases hk
        exact .inr ⟨rfl, stop, branches, rfl, hmem⟩
  case h_7 => cases hmove

theorem sound_step {knows : String → Bool} {branch : String} {move : Move} {d next : Chain}
    {events : List Event} (h : d.Sound) (hstep : step knows branch move d = some (next, events)) :
    next.Sound ∧ ∀ k, next = .ended (.error (.crash k)) → d.Excused move k := by
  obtain ⟨⟨after, seen⟩, hmove, heq⟩ := Option.map_eq_some_iff.1 hstep
  cases heq
  exact sound_move? h hmove

theorem Sound.at? {address : List Nat} {c d : Chain} (h : c.Sound) (hat : c.at? address = some d) :
    d.Sound := by
  induction address generalizing c with
  | nil =>
    cases hat
    exact h
  | cons i rest ih =>
    cases h with
    | forked here each =>
      obtain ⟨child, hchild, hat⟩ := Option.bind_eq_some_iff.1 hat
      exact ih (each child (List.mem_of_getElem? hchild)) hat
    | _ => cases hat

theorem sound_stepAt {knows : String → Bool} {move : Move} {address : List Nat} {branch : String}
    {c next : Chain} {events : List Event} (h : c.Sound)
    (hmade : stepAt knows move address branch c = some (next, events)) : next.Sound := by
  induction address generalizing branch c next with
  | nil => exact (sound_step h hmade).1
  | cons i rest ih =>
    cases h with
    | @forked stop branches here each =>
      simp only [stepAt, Option.bind_eq_bind, Option.bind_eq_some_iff] at hmade
      obtain ⟨child, hchild, ⟨after, seen⟩, hafter, hnext⟩ := hmade
      cases hnext
      have hsound := ih (each child (List.mem_of_getElem? hchild)) hafter
      refine .forked here fun d hd => ?_
      rcases List.mem_or_eq_of_mem_set hd with hd | rfl
      · exact each d hd
      · exact hsound
    | _ => simp [stepAt] at hmade

theorem sound_course {knows : String → Bool} {replies : Replies} {branch : String} {c last : Chain}
    {events : List Event} (h : c.Sound) (course : Course knows replies branch c events last) :
    last.Sound := by
  induction course with
  | rest => exact h
  | step honest made further ih => exact ih (sound_stepAt h made)

end Chain

end ReminderFlow
