import ReminderFlow.Proofs.Run.Walk

namespace ReminderFlow.Chain

/-- What a chain has done that follows a machine from its start, by the visits that it has made
and by where it stands now. A call may be missing in the last visit if the task cannot make it, or
else, if `spare` holds, when the chain still waits for a worker to make it. -/
inductive Conduct (knows : String → Bool) (replies : Replies) (spare : Prop) :
    String → Machine → Document → List Event → Chain → Prop
  | intro {branch : String} {m : Machine} {doc : Document} {events : List Event} {last : Chain}
      {visits : List Visit} (parts : events = visits.flatMap Visit.seen)
      (told : ∀ v ∈ visits, v.Told branch)
      (did : deeds branch events = visits.flatMap (Visit.acts branch))
      (start : ∀ v, visits.head? = some v → v.name = m.start ∧ v.document = doc)
      (declared : ∀ v ∈ visits, m.state? v.name = some v.state)
      (onward : visits.IsChain fun v w => .str w.name ∈ v.state.successors ∧ v.Calls knows ∧
        v.Hands replies w.document)
      (calls : ∀ v, visits.getLast? = some v → v.Calls knows ∨
        (v.Barred knows ∧ ∃ f, last = ended (.error f)) ∨
        (spare ∧ v.call = none ∧ ∃ stop call, last = working stop call false))
      (ends : ∀ r, last = ended r → ∃ v, visits.getLast? = some v ∧ ∀ doc', r = .ok doc' →
        v.state.isTerminal = true ∧ (∀ cause error, v.state ≠ .fail cause error) ∧
        v.Calls knows ∧ v.Hands replies doc')
      (closed : last.result? ≠ none → leaving branch <:+ events ∧
        ∀ move address, stepAt knows move address branch last = none)
      (forks : ∀ v ∈ visits, ∀ machines strays next, v.state = .parallel machines strays next →
        v.branches.length = machines.length)
      (branches : ∀ v ∈ visits, ∀ machines strays next, v.state = .parallel machines strays next →
        ∀ (i : Nat) b c, machines[i]? = some b → v.branches[i]? = some c →
          Conduct knows replies spare (branchName branch v.name i) b v.document
            (under (branchName branch v.name i) v.seen) c) :
      Conduct knows replies spare branch m doc events last

variable {knows : String → Bool} {replies : Replies} {spare : Prop} {branch : String}

/-- Every chain of an accepted machine conducts itself as the machine says, by induction on the
machine: the branches of a parallel state are chains of accepted machines themselves. -/
theorem Walk.conduct {m : Machine} {doc : Document} {visits : List Visit} {last : Chain}
    (accepted : m.Accepted) (h : Walk knows replies branch m doc visits last)
    (hspare : last.result? = none → spare) :
    Conduct knows replies spare branch m doc (visits.flatMap Visit.seen) last := by
  induction accepted generalizing branch doc visits last with
  | @intro m made named inner ih =>
    have accepted : m.Accepted := .intro made named inner
    refine .intro rfl (fun v hv => (h.visit hv).2.1) h.deeds (fun v hv => h.head hv)
      (fun v hv => (h.visit hv).1) (h.onward accepted) (fun v hv => ?_) (fun r hr => ?_)
      (fun hended => ?_) (fun v hv machines strays next hstate => ?_)
      (fun v hv machines strays next hstate i b c hb hc => ?_)
    · obtain hcalls | hbarred | ⟨hnone, stop, call, rfl⟩ := h.calls accepted hv
      · exact .inl hcalls
      · exact .inr (.inl hbarred)
      · exact .inr (.inr ⟨hspare rfl, hnone, stop, call, rfl⟩)
    · subst hr
      exact h.ends
    · cases last with
      | ended r => exact ⟨h.closed, fun move address => stepAt_ended move address r⟩
      | _ => exact absurd rfl hended
    · rw [(h.branches hv hstate).1.length, List.length_map]
    · obtain ⟨hforks, hended⟩ := h.branches hv hstate
      have hfirst : (machines.map fun b => created b v.document)[i]? =
          some (created b v.document) := by
        rw [List.getElem?_map, hb]
        rfl
      have hcourse := hforks.each i _ c hfirst hc
      have hstates : (v.name, State.parallel machines strays next) ∈ m.states :=
        Machine.mem_states_of_state? (hstate ▸ (h.visit hv).1)
      have hmem : b ∈ machines := List.mem_of_getElem? hb
      have hb := inner v.name machines strays next hstates b hmem
      obtain ⟨walked, hwalk, hseen⟩ := Walk.idle.course hb (.created hb) hcourse
      have hparts : walked.flatMap Visit.seen = under (branchName branch v.name i) v.seen := hseen
      rw [← hparts]
      refine ih v.name machines strays next hstates b hmem hwalk fun hrunning => ?_
      exact hspare (hended c (List.mem_of_getElem? hc) hrunning)

theorem Course.conduct {m : Machine} {doc : Document} {seen : List Event} {last : Chain}
    (course : Course knows replies branch (ready m m.start doc) seen last) (accepted : m.Accepted) :
    Conduct knows replies (last.result? = none) branch m doc seen last := by
  have hsound : Sound (ready m m.start doc) := .ready accepted accepted.locallyWellFormed.start
  obtain ⟨visits, hwalk, hseen⟩ := Walk.start.course accepted hsound course
  have hparts : visits.flatMap Visit.seen = seen := hseen
  rw [← hparts]
  exact hwalk.conduct accepted fun hrunning => hrunning

end ReminderFlow.Chain
