import ReminderFlow.Proofs.Run.Visit

namespace ReminderFlow.Chain

variable {knows : String → Bool} {replies : Replies} {branch : String}

theorem taskCall_eq_ok {resource inputPath outputPath : Value} {doc : Document} {call : Call}
    (h : taskCall knows resource inputPath outputPath doc = .ok call) :
    ∃ id input, resource = .str id ∧ knows id = true ∧
      doc.get (Datum.ofValue inputPath) = .ok input ∧ call = ⟨id, input, outputPath⟩ := by
  unfold taskCall at h
  split at h
  · rename_i id
    split_ifs at h with hknows
    obtain ⟨input, hinput, rfl⟩ := map_eq_ok_iff.1 h
    cases hget : doc.get (Datum.ofValue inputPath) with
    | error e =>
      rw [hget] at hinput
      cases hinput
    | ok v =>
      rw [hget] at hinput
      cases hinput
      exact ⟨id, _, rfl, hknows, rfl, rfl⟩
  · cases h

theorem take_cases (stop : Stop) (call : Call) (reply : Except Fault Datum) :
    (∃ f, take stop call reply = ended (.error f)) ∨
      ∃ output doc, reply = .ok output ∧
        stop.document.set (Datum.ofValue call.outputPath) output = .ok doc ∧
        take stop call reply = follow stop.machine stop.next doc := by
  cases reply with
  | error fault => exact .inl ⟨_, rfl⟩
  | ok output =>
    cases hset : stop.document.set (Datum.ofValue call.outputPath) output with
    | error e =>
      left
      rw [take, store, hset]
      exact ⟨_, rfl⟩
    | ok doc =>
      right
      refine ⟨output, doc, rfl, hset, ?_⟩
      rw [take, store, hset]
      rfl

/-- A chain that has gone on from a visit has failed, or has followed the one successor of the
state, or the successor that was chosen. -/
theorem Visit.At.outcome {m : Machine} {v : Visit} {c : Chain}
    (h : v.At knows replies branch m c) :
    (c.isReady = false ∧ c.result? = none) ∨ (∃ f, c = ended (.error f)) ∨
      (∃ doc, c = follow m v.state.next doc ∧ v.Calls knows ∧ v.Hands replies doc ∧
        (∀ rules default, v.state ≠ .choice rules default) ∧
        ∀ cause error, v.state ≠ .fail cause error) ∨
      ∃ rules default target, v.state = .choice rules default ∧
        choose v.document default rules = .ok target ∧ v.call = none ∧
        c = jump m target v.document := by
  cases h with
  | entered plain made =>
    cases hstate : v.state with
    | succeed =>
      right; right; left
      refine ⟨v.document, rfl, ?_, ?_, by simp, by simp⟩
      · rw [Calls, hstate]
        exact made
      · rw [Hands, hstate]
    | fail cause error => exact .inr (.inl ⟨_, rfl⟩)
    | pass next =>
      right; right; left
      refine ⟨v.document, rfl, ?_, ?_, by simp, by simp⟩
      · rw [Calls, hstate]
        exact made
      · rw [Hands, hstate]
    | choice rules default =>
      rw [enterState]
      cases hchoose : choose v.document default rules with
      | ok target => exact .inr (.inr (.inr ⟨rules, default, target, rfl, hchoose, made, rfl⟩))
      | error f => exact .inr (.inl ⟨f, rfl⟩)
    | wait secondsPath seconds next =>
      rw [enterState]
      cases waitTime secondsPath seconds v.document with
      | ok t => exact .inl ⟨rfl, rfl⟩
      | error f => exact .inr (.inl ⟨f, rfl⟩)
    | task resource inputPath outputPath next =>
      rw [enterState]
      cases taskCall knows resource inputPath outputPath v.document with
      | ok call => exact .inl ⟨rfl, rfl⟩
      | error f => exact .inr (.inl ⟨f, rfl⟩)
    | parallel machines strays next => exact absurd hstate (plain machines strays next)
  | woken state made =>
    right; right; left
    refine ⟨v.document, by rw [state]; rfl, ?_, ?_, by simp [state], by simp [state]⟩
    · rw [Calls, state]
      exact made
    · rw [Hands, state]
  | called => exact .inl ⟨rfl, rfl⟩
  | @replied resource inputPath outputPath next call reply state allowed made given =>
    obtain ⟨f, hf⟩ | ⟨output, doc, rfl, hset, htake⟩ :=
      take_cases ⟨m, v.name, next, v.document⟩ call reply
    · exact .inr (.inl ⟨f, hf⟩)
    · right; right; left
      obtain ⟨id, input, hid, hknows, hget, rfl⟩ := taskCall_eq_ok allowed
      refine ⟨doc, by rw [htake, state]; rfl, ?_, ?_, by simp [state], by simp [state]⟩
      · rw [Calls, state]
        exact ⟨id, input, hid, hknows, hget, made⟩
      · rw [Hands, state]
        exact ⟨_, output, made, given, hset⟩
  | forked => exact .inl ⟨rfl, rfl⟩
  | @joined machines strays next results _ state made forks all joins =>
    cases joins with
    | failed => exact .inr (.inl ⟨_, rfl⟩)
    | @together docs hdocs =>
      right; right; left
      refine ⟨_, by rw [state]; rfl, ?_, ?_, by simp [state], by simp [state]⟩
      · rw [Calls, state]
        exact made
      · rw [Hands, state]
        refine ⟨docs, ?_, rfl⟩
        rw [all, hdocs, List.map_map]
        rfl

theorem follow_eq_ready {m n : Machine} {next : Value} {doc doc' : Document} {name : String}
    (h : follow m next doc = ready n name doc') : m = n ∧ next = .str name ∧ doc = doc' := by
  unfold follow jump at h
  split_ifs at h
  split at h
  · obtain ⟨rfl, rfl, rfl⟩ := ready.inj h
    exact ⟨rfl, rfl, rfl⟩
  · cases h

theorem follow_eq_ended_ok {m : Machine} {next : Value} {doc doc' : Document}
    (h : follow m next doc = ended (.ok doc')) : next.isNull = true ∧ doc = doc' := by
  unfold follow jump at h
  split_ifs at h with hnull
  · cases h
    exact ⟨hnull, rfl⟩
  · split at h <;> cases h

/-- From a visit the chain goes on to a successor of the state, with the document of the visit. -/
theorem Visit.At.onward {m n : Machine} {v : Visit} {name : String} {doc : Document}
    (h : v.At knows replies branch m (ready n name doc)) (accepted : m.Accepted)
    (declared : m.state? v.name = some v.state) :
    m = n ∧ .str name ∈ v.state.successors ∧ v.Calls knows ∧ v.Hands replies doc := by
  obtain ⟨hready, -⟩ | ⟨f, hf⟩ | ⟨doc', hfollow, hcalls, hhands, hchoice, -⟩ |
    ⟨rules, default, target, hstate, hchoose, hcall, hjump⟩ := h.outcome
  · cases hready
  · cases hf
  · obtain ⟨rfl, hnext, rfl⟩ := follow_eq_ready hfollow.symm
    refine ⟨rfl, ?_, hcalls, hhands⟩
    have hsuccessors : v.state.successors = State.someUnlessNull v.state.next := by
      cases hs : v.state with
      | choice rules default => exact absurd hs (hchoice rules default)
      | _ => rfl
    rw [hsuccessors, hnext]
    exact List.mem_singleton_self _
  · have hfields := accepted.locallyWellFormed.fields _ (Machine.mem_states_of_state? declared)
    rw [hstate] at hfields
    have hmem : target ∈ v.state.successors := hstate ▸ mem_successors hfields.2.1 hchoose
    unfold jump at hjump
    split at hjump
    · obtain ⟨rfl, rfl, rfl⟩ := ready.inj hjump
      refine ⟨rfl, hmem, ?_, ?_⟩
      · rw [Calls, hstate]
        exact hcall
      · rw [Hands, hstate]
    · cases hjump

/-- A chain only returns from a terminal state that does not fail. -/
theorem Visit.At.returns {m : Machine} {v : Visit} {doc : Document}
    (h : v.At knows replies branch m (ended (.ok doc))) :
    v.state.isTerminal = true ∧ (∀ cause error, v.state ≠ .fail cause error) ∧ v.Calls knows ∧
      v.Hands replies doc := by
  obtain ⟨-, hended⟩ | ⟨f, hf⟩ | ⟨doc', hfollow, hcalls, hhands, hchoice, hfail⟩ |
    ⟨rules, default, target, -, -, -, hjump⟩ := h.outcome
  · cases hended
  · cases hf
  · obtain ⟨hnull, rfl⟩ := follow_eq_ended_ok hfollow.symm
    refine ⟨?_, hfail, hcalls, hhands⟩
    cases hs : v.state with
    | choice rules default => exact absurd hs (hchoice rules default)
    | fail cause error => exact absurd hs (hfail cause error)
    | succeed => rfl
    | _ =>
      rw [hs] at hnull
      exact hnull
  · unfold jump at hjump
    split at hjump <;> cases hjump

/-- Wherever the chain stands, the visit has made its call, or cannot make it and has failed, or the
call waits for a worker. -/
theorem Visit.At.calls {m : Machine} {v : Visit} {c : Chain} (h : v.At knows replies branch m c)
    (accepted : m.Accepted) (declared : m.state? v.name = some v.state) :
    v.Calls knows ∨ (v.Barred knows ∧ ∃ f, c = ended (.error f)) ∨
      (v.call = none ∧ ∃ stop call, c = working stop call false) := by
  have hmem := Machine.mem_states_of_state? declared
  have hfields := accepted.locallyWellFormed.fields _ hmem
  have hparts := accepted.parts _ hmem
  cases h with
  | entered plain made =>
    cases hstate : v.state with
    | task resource inputPath outputPath next =>
      right
      rw [hstate] at hfields hparts
      obtain ⟨id, rfl⟩ := hparts
      cases hcall : taskCall knows (.str id) inputPath outputPath v.document with
      | ok call =>
        right
        rw [enterState, hcall]
        exact ⟨made, _, call, rfl⟩
      | error f =>
        left
        rw [enterState, hcall]
        refine ⟨⟨made, id, inputPath, outputPath, next, hstate, ?_⟩, f, rfl⟩
        simp only [taskCall] at hcall
        split_ifs at hcall with hknows
        · right
          cases hget : v.document.get (Datum.ofValue inputPath) with
          | ok input =>
            rw [hget] at hcall
            cases hcall
          | error e =>
            obtain ⟨path, rfl⟩ := Document.get_error hfields.2.1 hget
            exact ⟨path, rfl⟩
        · exact .inl (Bool.eq_false_iff.2 hknows)
    | _ =>
      left
      rw [Calls, hstate]
      exact made
  | called state allowed made | replied state allowed made =>
    obtain ⟨id, input, hid, hknows, hget, rfl⟩ := taskCall_eq_ok allowed
    left
    rw [Calls, state]
    exact ⟨id, input, hid, hknows, hget, made⟩
  | woken state made | forked state made | joined state made =>
    left
    rw [Calls, state]
    exact made

/-- The branches of a parallel state are on courses of their own, and have ended before the chain
goes on. -/
theorem Visit.At.forks {m : Machine} {v : Visit} {c : Chain} {machines : List Machine}
    {strays : List Value} {next : Value} (h : v.At knows replies branch m c)
    (state : v.state = .parallel machines strays next) :
    v.Forks knows replies branch machines ∧
      ((∃ stop, c = .forked stop v.branches) ∨ ∀ d ∈ v.branches, d.result? ≠ none) := by
  cases h with
  | entered plain => exact absurd state (plain machines strays next)
  | woken state' | called state' | replied state' => cases state.symm.trans state'
  | forked state' made forks =>
    cases state.symm.trans state'
    exact ⟨forks, .inl ⟨_, rfl⟩⟩
  | joined state' made forks all joins =>
    cases state.symm.trans state'
    refine ⟨forks, .inr fun d hd => ?_⟩
    rw [all] at hd
    obtain ⟨r, -, rfl⟩ := List.mem_map.1 hd
    exact Option.some_ne_none r

end ReminderFlow.Chain
