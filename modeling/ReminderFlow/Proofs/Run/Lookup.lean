import ReminderFlow.Proofs.Run.Fork
import ReminderFlow.Proofs.Run.Crash

namespace ReminderFlow

namespace Machine

theorem resourcesOfStates_eq (states : List (String × State)) :
    resourcesOfStates states = states.flatMap fun p => resourcesOfState p.2 := by
  induction states with
  | nil => rfl
  | cons p rest ih => rw [resourcesOfStates, ih, List.flatMap_cons]

theorem resourcesOfBranches_eq (branches : List Machine) :
    resourcesOfBranches branches = branches.flatMap resources := by
  induction branches with
  | nil => rfl
  | cons m rest ih => rw [resourcesOfBranches, ih, List.flatMap_cons]

theorem mem_resources {m : Machine} {name : String} {s : State} {v : Value}
    (hs : (name, s) ∈ m.states) (hv : v ∈ resourcesOfState s) : v ∈ m.resources := by
  cases m with
  | mk start states comment =>
    rw [resources, resourcesOfStates_eq, List.mem_flatMap]
    exact ⟨_, hs, hv⟩

theorem mem_executorIds {m : Machine} {id : String} :
    id ∈ m.executorIds ↔ .str id ∈ m.resources := by
  have hstr (v : Value) : v.str? = some id ↔ v = .str id := by cases v <;> simp [Value.str?]
  simp [executorIds, List.mem_filterMap, hstr]

/-- The ids of a branch are ids of the machine. -/
theorem executorIds_subset {m b : Machine} {name : String} {branches : List Machine}
    {strays : List Value} {next : Value} (hs : (name, .parallel branches strays next) ∈ m.states)
    (hb : b ∈ branches) : b.executorIds ⊆ m.executorIds := by
  intro id hid
  rw [mem_executorIds] at hid ⊢
  apply mem_resources hs
  rw [resourcesOfState, resourcesOfBranches_eq, List.mem_flatMap]
  exact ⟨b, hb, hid⟩

/-- The machine has been accepted, and needs no other executors than these. -/
structure Within (ids : List String) (m : Machine) : Prop where
  accepted : m.Accepted
  needs : m.executorIds ⊆ ids

variable {ids : List String} {m : Machine} {name : String}

theorem Within.branch (h : m.Within ids) {branches : List Machine} {strays : List Value}
    {next : Value} (hs : m.state? name = some (.parallel branches strays next)) {b : Machine}
    (hb : b ∈ branches) : b.Within ids := by
  have hmem := mem_states_of_state? hs
  exact ⟨h.accepted.parts _ hmem b hb, fun id hid => h.needs (executorIds_subset hmem hb hid)⟩

theorem Within.resource (h : m.Within ids) {resource inputPath outputPath next : Value}
    (hs : m.state? name = some (.task resource inputPath outputPath next)) :
    ∃ executor ∈ ids, resource = .str executor := by
  have hmem := mem_states_of_state? hs
  obtain ⟨executor, rfl⟩ := h.accepted.parts _ hmem
  refine ⟨executor, h.needs (mem_executorIds.2 (mem_resources hmem ?_)), rfl⟩
  exact List.mem_singleton.2 rfl

end Machine

namespace Chain

/-- What a chain looks up by a move: the executor of the task that it enters. -/
def lookup? : Move → Chain → Option Value
  | .enter, ready m name _ =>
    match m.state? name with
    | some (.task resource ..) => some resource
    | _ => none
  | _, _ => none

variable {knows other : String → Bool}

theorem taskCall_congr {resource : Value}
    (h : ∀ executor, resource = .str executor → knows executor = other executor)
    (inputPath outputPath : Value) (doc : Document) :
    taskCall knows resource inputPath outputPath doc =
      taskCall other resource inputPath outputPath doc := by
  cases resource with
  | str executor => simp only [taskCall, h executor rfl]
  | _ => rfl

/-- A move asks of the registry no more than what is looked up. -/
theorem move?_congr {move : Move} {c : Chain}
    (h : ∀ executor, lookup? move c = some (.str executor) → knows executor = other executor)
    (branch : String) : move? knows branch move c = move? other branch move c := by
  cases move with
  | enter =>
    cases c with
    | ready m name doc =>
      cases hs : m.state? name with
      | none => simp only [move?, hs]
      | some s =>
        cases s with
        | task resource inputPath outputPath next =>
          have htask : ∀ executor, resource = .str executor → knows executor = other executor := by
            rintro executor rfl
            exact h executor (by simp only [lookup?, hs])
          simp only [move?, hs, enterState, taskCall_congr htask]
        | _ => simp only [move?, hs, enterState]
    | _ => rfl
  | _ =>
    cases c with
    | working stop call started => cases started <;> rfl
    | _ => rfl

theorem stepAt_congr {move : Move} {address : List Nat} {branch : String} {c : Chain}
    (h : ∀ d executor, c.at? address = some d → lookup? move d = some (.str executor) →
      knows executor = other executor) :
    stepAt knows move address branch c = stepAt other move address branch c := by
  induction address generalizing branch c with
  | nil =>
    have hmove := move?_congr (h c · rfl) branch
    simp only [stepAt, step, hmove]
  | cons i rest ih =>
    cases c with
    | forked stop branches =>
      cases hchild : branches[i]? with
      | none => simp [stepAt, hchild]
      | some child =>
        have hbelow : stepAt knows move rest (branchName branch stop.state i) child =
            stepAt other move rest (branchName branch stop.state i) child := by
          refine ih fun d executor hd => h d executor ?_
          rw [at?, hchild]
          exact hd
        simp only [stepAt, hchild, Option.bind_eq_bind, Option.bind_some, hbelow]
    | _ => rfl

/-- The failure is not for want of an executor, unless of one with an id that the registry lacks. -/
def Excusable (ids : List String) (knows : String → Bool) (f : Failure) : Prop :=
  ∀ shown, f = .unknownExecutor shown →
    ∃ executor ∈ ids, shown = Text.quote executor ∧ knows executor = false

/-- Everywhere in the tree, the machines need only these executors, the calls are calls of these,
and failures are excusable. -/
inductive Asks (ids : List String) (knows : String → Bool) : Chain → Prop
  | created {m : Machine} {doc : Document} (machine : m.Within ids) : Asks ids knows (created m doc)
  | ready {m : Machine} {name : String} {doc : Document} (machine : m.Within ids) :
      Asks ids knows (ready m name doc)
  | waiting {stop : Stop} {seconds : Number} (machine : stop.machine.Within ids) :
      Asks ids knows (waiting stop seconds)
  | working {stop : Stop} {call : Call} {started : Bool} (machine : stop.machine.Within ids)
      (executor : call.executor ∈ ids) : Asks ids knows (working stop call started)
  | forked {stop : Stop} {branches : List Chain} (machine : stop.machine.Within ids)
      (each : ∀ c ∈ branches, Asks ids knows c) : Asks ids knows (forked stop branches)
  | ended {result : Except Failure Document}
      (failure : ∀ f, result = .error f → Excusable ids knows f) : Asks ids knows (ended result)

variable {ids : List String} {m : Machine}

theorem asks_ended_ok (doc : Document) : Asks ids knows (.ended (.ok doc)) := by
  refine .ended fun f hf => ?_
  cases hf

theorem asks_fail {f : Failure} (h : Excusable ids knows f) : Asks ids knows (fail f) := by
  refine .ended fun g hg => ?_
  cases hg
  exact h

theorem asks_jump (h : m.Within ids) (target : Value) (doc : Document) :
    Asks ids knows (jump m target doc) := by
  cases target with
  | str name => exact .ready h
  | _ => exact asks_fail fun _ => Failure.noConfusion

theorem asks_follow (h : m.Within ids) (next : Value) (doc : Document) :
    Asks ids knows (follow m next doc) := by
  unfold follow
  split_ifs
  · exact asks_ended_ok doc
  · exact asks_jump h next doc

theorem excusable_ofDocumentError (e : DocumentError) :
    Excusable ids knows (.ofDocumentError e) := by
  intro v hv
  cases e <;> cases hv

theorem excusable_of_choose {doc : Document} {default : Value} {rules : List Rule} {f : Failure}
    (h : choose doc default rules = .error f) : Excusable ids knows f := by
  induction rules with
  | nil => cases h
  | cons r rest ih =>
    rw [choose] at h
    split at h
    · rename_i e _
      cases h
      intro v hv
      cases e <;> cases hv
    · cases h
    · exact ih h

theorem excusable_of_waitTime {m : Machine} (h : m.Within ids) {name : String}
    {secondsPath seconds next : Value} (hs : m.state? name = some (.wait secondsPath seconds next))
    {doc : Document} {f : Failure} (hf : waitTime secondsPath seconds doc = .error f) :
    Excusable ids knows f := by
  have hfields : (State.wait secondsPath seconds next).WellFormed :=
    h.accepted.locallyWellFormed.fields _ (Machine.mem_states_of_state? hs)
  intro v hv
  rcases waitTime_error hfields hf with ⟨p, rfl⟩ | ⟨given, -, rfl⟩ | ⟨rfl, -⟩
  · cases hv
  · obtain ⟨shown, -, h⟩ | ⟨fault, -, h⟩ := Failure.showing_cases .duration given <;>
      rw [h] at hv <;> cases hv
  · cases hv

theorem executor_of_taskCall {executor : String} {inputPath outputPath : Value} {doc : Document}
    {call : Call} (h : taskCall knows (.str executor) inputPath outputPath doc = .ok call) :
    call.executor = executor := by
  rw [taskCall] at h
  split_ifs at h
  obtain ⟨input, -, rfl⟩ := map_eq_ok_iff.1 h
  rfl

/-- A task fails for want of its executor only if the registry does not know it. -/
theorem excusable_of_taskCall {executor : String} (hmem : executor ∈ ids)
    {inputPath outputPath : Value} {doc : Document} {f : Failure}
    (h : taskCall knows (.str executor) inputPath outputPath doc = .error f) :
    Excusable ids knows f := by
  rw [taskCall] at h
  split_ifs at h with hknown
  · cases hget : doc.get (Datum.ofValue inputPath) with
    | ok v =>
      rw [hget] at h
      cases h
    | error e =>
      rw [hget] at h
      cases h
      exact excusable_ofDocumentError e
  · cases h
    intro shown hshown
    have hself : Failure.showing .unknownExecutor (.str executor) =
        .unknownExecutor (Text.quote executor) := Failure.showing_of_ok rfl
    obtain rfl := Failure.unknownExecutor.inj (hself.symm.trans hshown)
    exact ⟨executor, hmem, rfl, Bool.eq_false_iff.2 hknown⟩

theorem asks_enterState (h : m.Within ids) {name : String} {s : State}
    (hs : m.state? name = some s) (doc : Document) :
    Asks ids knows (enterState knows m name doc s) := by
  cases s with
  | succeed => exact asks_ended_ok doc
  | fail cause error => exact asks_fail fun _ => Failure.noConfusion
  | pass next => exact asks_follow h next doc
  | choice rules default =>
    rw [enterState]
    split
    · exact asks_jump h _ doc
    · rename_i f hf
      exact asks_fail (excusable_of_choose hf)
  | wait secondsPath seconds next =>
    rw [enterState]
    split
    · exact .waiting h
    · rename_i f hf
      exact asks_fail (excusable_of_waitTime h hs hf)
  | task resource inputPath outputPath next =>
    obtain ⟨executor, hmem, rfl⟩ := h.resource hs
    rw [enterState]
    split
    · rename_i call hcall
      refine .working h ?_
      rw [executor_of_taskCall hcall]
      exact hmem
    · rename_i f hf
      exact asks_fail (excusable_of_taskCall hmem hf)
  | parallel branches strays next =>
    refine .forked h fun c hc => ?_
    obtain ⟨b, hb, rfl⟩ := List.mem_map.1 hc
    exact .created (h.branch hs hb)

theorem asks_take {stop : Stop} (h : stop.machine.Within ids) (call : Call)
    (reply : Except Fault Datum) : Asks ids knows (take stop call reply) := by
  cases reply with
  | error fault =>
    obtain ⟨cause, -, h⟩ | ⟨other, -, h⟩ := failed_cases call.executor fault <;> rw [take, h] <;>
      exact asks_fail fun _ => Failure.noConfusion
  | ok output =>
    rw [take, store]
    cases stop.document.set (Datum.ofValue call.outputPath) output with
    | ok doc => exact asks_follow h _ doc
    | error e =>
      cases e with
      | incompatible e =>
        obtain ⟨cause, h⟩ | ⟨other, h⟩ := refused_cases call.executor e.fault <;>
          exact asks_fail fun _ hv => by cases h.symm.trans hv
      | _ => exact asks_fail (excusable_ofDocumentError _)

/-- The calls among the events are calls of these executors. -/
def CallsOnly (ids : List String) (events : List Event) : Prop :=
  ∀ branch executor input, .called branch executor input ∈ events → executor ∈ ids

theorem CallsOnly.append {before after : List Event} (hb : CallsOnly ids before)
    (ha : CallsOnly ids after) : CallsOnly ids (before ++ after) := by
  intro branch executor input h
  rcases List.mem_append.1 h with h | h
  · exact hb branch executor input h
  · exact ha branch executor input h

theorem callsOnly_nil : CallsOnly ids [] := fun _ _ _ h => absurd h List.not_mem_nil

theorem callsOnly_ending (branch : String) (c : Chain) : CallsOnly ids (ending branch c) := by
  intro name executor input h
  unfold ending leaving at h
  split_ifs at h <;> simp at h

/-- A move keeps what is asked for among the ids. -/
theorem Asks.step {branch : String} {move : Move} {c next : Chain} {events : List Event}
    (h : Asks ids knows c) (made : step knows branch move c = some (next, events)) :
    Asks ids knows next ∧ CallsOnly ids events := by
  obtain ⟨seen, hmove, rfl⟩ := move?_of_step made
  suffices Asks ids knows next ∧ CallsOnly ids seen from
    ⟨this.1, this.2.append (callsOnly_ending branch next)⟩
  cases h with
  | created machine =>
    cases move <;> cases hmove
    exact ⟨.ready machine, callsOnly_nil⟩
  | @ready m name doc machine =>
    obtain ⟨-, rfl⟩ := enter_of_stepAt (show stepAt knows move [] branch _ = _ from made)
    rw [move?] at hmove
    cases hs : m.state? name with
    | none =>
      rw [hs] at hmove
      cases hmove
      exact ⟨asks_fail fun _ => Failure.noConfusion, callsOnly_nil⟩
    | some s =>
      rw [hs] at hmove
      cases hmove
      refine ⟨asks_enterState machine hs doc, fun name executor input hmem => ?_⟩
      cases List.mem_singleton.1 hmem
  | waiting machine =>
    cases move <;> cases hmove
    exact ⟨asks_follow machine _ _, callsOnly_nil⟩
  | @working stop call started machine executor =>
    cases move with
    | call =>
      cases started <;> cases hmove
      refine ⟨.working machine executor, fun name other input hmem => ?_⟩
      cases List.mem_singleton.1 hmem
      exact executor
    | reply r =>
      cases started <;> cases hmove
      refine ⟨asks_take machine call r, fun name other input hmem => ?_⟩
      obtain h | ⟨text, h⟩ := refusal_cases branch call.executor r <;> rw [h] at hmem <;>
        simp at hmem
    | _ => cases started <;> cases hmove
  | @forked stop branches machine each =>
    obtain ⟨rfl, results, rfl, hjoins, hshown⟩ := join_of_step made
    rw [List.append_left_eq_self.1 hshown]
    refine ⟨?_, callsOnly_nil⟩
    cases hjoins with
    | together all => exact asks_follow machine _ _
    | failed here first => exact each _ (List.mem_map_of_mem (List.mem_of_getElem? here))
  | ended failure => cases move <;> cases hmove

theorem Asks.stepAt {move : Move} {address : List Nat} {branch : String} {c next : Chain}
    {events : List Event} (h : Asks ids knows c)
    (made : Chain.stepAt knows move address branch c = some (next, events)) :
    Asks ids knows next ∧ CallsOnly ids events := by
  induction address generalizing branch c next with
  | nil => exact h.step made
  | cons i rest ih =>
    cases h with
    | @forked stop branches machine each =>
      obtain ⟨child, after, hchild, hmade, rfl⟩ := stepAt_cons_iff.1 made
      obtain ⟨hafter, hcalls⟩ := ih (each child (List.mem_of_getElem? hchild)) hmade
      refine ⟨.forked machine fun d hd => ?_, hcalls⟩
      rcases List.mem_or_eq_of_mem_set hd with hd | rfl
      · exact each d hd
      · exact hafter
    | _ => simp [Chain.stepAt] at made

theorem Asks.at? {c d : Chain} {address : List Nat} (h : Asks ids knows c)
    (hat : c.at? address = some d) : Asks ids knows d := by
  induction address generalizing c with
  | nil =>
    cases hat
    exact h
  | cons i rest ih =>
    cases h with
    | forked machine each =>
      obtain ⟨child, hchild, hat⟩ := Option.bind_eq_some_iff.1 hat
      exact ih (each child (List.mem_of_getElem? hchild)) hat
    | _ => cases hat

theorem Asks.course {replies : Replies} {branch : String} {c last : Chain} {events : List Event}
    (h : Asks ids knows c) (course : Course knows replies branch c events last) :
    Asks ids knows last ∧ CallsOnly ids events := by
  induction course with
  | rest => exact ⟨h, callsOnly_nil⟩
  | step honest made further ih =>
    obtain ⟨hnext, hcalls⟩ := h.stepAt made
    obtain ⟨hlast, hmore⟩ := ih hnext
    exact ⟨hlast, hcalls.append hmore⟩

/-- What is looked up is among the ids. -/
theorem Asks.mem_of_lookup? {c : Chain} (h : Asks ids knows c) {move : Move} {v : Value}
    (hv : lookup? move c = some v) : ∃ executor ∈ ids, v = .str executor := by
  unfold lookup? at hv
  split at hv
  · split at hv
    · rename_i hs
      cases hv
      cases h with
      | ready machine => exact machine.resource hs
    · cases hv
  · cases hv

end Chain

end ReminderFlow
