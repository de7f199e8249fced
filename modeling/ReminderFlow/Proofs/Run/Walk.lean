import Mathlib.Data.List.Chain
import ReminderFlow.Proofs.Run.Passage

namespace ReminderFlow.Chain

variable {knows : String → Bool} {replies : Replies} {branch : String}

/-- The states that a chain has visited, each entered from where the visit before has gone on to. -/
inductive Walk (knows : String → Bool) (replies : Replies) (branch : String) (m : Machine)
    (doc : Document) : List Visit → Chain → Prop
  | idle : Walk knows replies branch m doc [] (created m doc)
  | start : Walk knows replies branch m doc [] (ready m m.start doc)
  | next {visits : List Visit} {v : Visit} {c : Chain}
      (before : Walk knows replies branch m doc visits (ready m v.name v.document))
      (declared : m.state? v.name = some v.state)
      (told : v.Told branch) (stands : v.At knows replies branch m c)
      (closed : ending branch c <:+ v.seen) :
      Walk knows replies branch m doc (visits ++ [v]) c

variable {m : Machine} {doc : Document} {visits : List Visit} {c : Chain}

/-- A visit of the walk: its state is one of the machine, it is told, and the chain stands in it
still or has gone on. -/
theorem Walk.visit (h : Walk knows replies branch m doc visits c) {v : Visit} (hv : v ∈ visits) :
    m.state? v.name = some v.state ∧ v.Told branch ∧
      ((visits.getLast? = some v ∧ v.At knows replies branch m c) ∨
        ∃ n name doc', v.At knows replies branch m (ready n name doc')) := by
  induction h with
  | idle | start => cases hv
  | @next visits w c before declared told stands closed ih =>
    rcases List.mem_append.1 hv with hv | hv
    · obtain ⟨hdeclared, htold, ⟨-, hat⟩ | hgone⟩ := ih hv
      · exact ⟨hdeclared, htold, .inr ⟨_, _, _, hat⟩⟩
      · exact ⟨hdeclared, htold, .inr hgone⟩
    · obtain rfl := List.mem_singleton.1 hv
      exact ⟨declared, told, .inl ⟨List.getLast?_concat, stands⟩⟩

theorem Walk.at_getLast? (h : Walk knows replies branch m doc visits c) {v : Visit}
    (hv : visits.getLast? = some v) : v.At knows replies branch m c := by
  cases h with
  | idle | start => cases hv
  | next before declared told stands closed =>
    obtain rfl := Option.some.inj (List.getLast?_concat.symm.trans hv)
    exact stands

theorem Walk.of_nil (h : Walk knows replies branch m doc [] c) :
    c = created m doc ∨ c = ready m m.start doc := by
  generalize hnone : [] = visits at h
  cases h with
  | idle => exact .inl rfl
  | start => exact .inr rfl
  | next => exact absurd hnone.symm (by simp)

theorem Walk.head (h : Walk knows replies branch m doc visits c) {v : Visit}
    (hv : visits.head? = some v) : v.name = m.start ∧ v.document = doc := by
  induction h with
  | idle | start => cases hv
  | @next visits w c before declared told stands closed ih =>
    cases hvisits : visits with
    | nil =>
      subst hvisits
      obtain rfl := Option.some.inj hv
      obtain hcreated | hready := before.of_nil
      · cases hcreated
      · obtain ⟨-, hname, hdoc⟩ := ready.inj hready
        exact ⟨hname, hdoc⟩
    | cons first rest =>
      subst hvisits
      exact ih hv

theorem Walk.deeds (h : Walk knows replies branch m doc visits c) :
    deeds branch (visits.flatMap Visit.seen) = visits.flatMap (Visit.acts branch) := by
  induction h with
  | idle | start => rfl
  | @next visits w c before declared told stands closed ih =>
    rw [List.flatMap_append, List.flatMap_append, deeds_append, ih, List.flatMap_singleton,
      List.flatMap_singleton, told.deeds]

theorem Walk.closed (h : Walk knows replies branch m doc visits c) :
    ending branch c <:+ visits.flatMap Visit.seen := by
  cases h with
  | idle | start => exact List.nil_suffix
  | @next visits v _ before declared told stands closed =>
    rw [List.flatMap_append, List.flatMap_singleton]
    exact closed.trans (List.suffix_append _ v.seen)

/-- Each visit but the last one goes on to the next one. -/
theorem Walk.onward (h : Walk knows replies branch m doc visits c) (accepted : m.Accepted) :
    visits.IsChain fun v w => .str w.name ∈ v.state.successors ∧ v.Calls knows ∧
      v.Hands replies w.document := by
  induction h with
  | idle | start => exact .nil
  | @next visits w c before declared told stands closed ih =>
    rw [List.isChain_append]
    refine ⟨ih, .singleton w, fun v hv u hu => ?_⟩
    obtain rfl := Option.some.inj hu
    have hmem : v ∈ visits := List.mem_of_getLast? hv
    exact ((before.at_getLast? hv).onward accepted (before.visit hmem).1).2

theorem Walk.calls (h : Walk knows replies branch m doc visits c) (accepted : m.Accepted) {v : Visit}
    (hv : visits.getLast? = some v) :
    v.Calls knows ∨ (v.Barred knows ∧ ∃ f, c = ended (.error f)) ∨
      (v.call = none ∧ ∃ stop call, c = working stop call false) :=
  (h.at_getLast? hv).calls accepted (h.visit (List.mem_of_getLast? hv)).1

/-- A chain ends in a state that it has entered. -/
theorem Walk.ends {r : Except Failure Document}
    (h : Walk knows replies branch m doc visits (ended r)) :
    ∃ v, visits.getLast? = some v ∧ ∀ doc', r = .ok doc' → v.state.isTerminal = true ∧
      (∀ cause error, v.state ≠ .fail cause error) ∧ v.Calls knows ∧ v.Hands replies doc' := by
  cases hlast : visits.getLast? with
  | none =>
    obtain rfl := List.getLast?_eq_none_iff.1 hlast
    rcases h.of_nil with heq | heq <;> cases heq
  | some v =>
    refine ⟨v, rfl, fun doc' hdoc => ?_⟩
    subst hdoc
    exact (h.at_getLast? hlast).returns

/-- The branches of a visit have ended with their chain. -/
theorem Walk.branches (h : Walk knows replies branch m doc visits c) {v : Visit} (hv : v ∈ visits)
    {machines : List Machine} {strays : List Value} {next : Value}
    (state : v.state = .parallel machines strays next) :
    v.Forks knows replies branch machines ∧
      ∀ d ∈ v.branches, d.result? = none → c.result? = none := by
  obtain ⟨-, -, ⟨-, hat⟩ | ⟨n, name, doc', hat⟩⟩ := h.visit hv
  · obtain ⟨hforks, ⟨stop, rfl⟩ | hended⟩ := hat.forks state
    · exact ⟨hforks, fun _ _ _ => rfl⟩
    · exact ⟨hforks, fun d hd hrunning => absurd hrunning (hended d hd)⟩
  · obtain ⟨hforks, ⟨stop, hstop⟩ | hended⟩ := hat.forks state
    · cases hstop
    · exact ⟨hforks, fun d hd hrunning => absurd hrunning (hended d hd)⟩

/-- Every move of a chain or of its branches goes on with the walk. -/
theorem Walk.move {move : Move} {address : List Nat} {next : Chain} {shown : List Event}
    (h : Walk knows replies branch m doc visits c) (accepted : m.Accepted) (sound : c.Sound)
    (honest : Honest replies address c move)
    (made : stepAt knows move address branch c = some (next, shown)) :
    ∃ further, Walk knows replies branch m doc further next ∧
      further.flatMap Visit.seen = visits.flatMap Visit.seen ++ shown := by
  cases hready : c.isReady with
  | true =>
    cases c with
    | ready n name doc' =>
      obtain ⟨rfl, rfl⟩ := enter_of_stepAt made
      have hmachine : m = n := by
        cases h with
        | start => rfl
        | next before declared told stands closed => exact (stands.onward accepted declared).1
      subst hmachine
      cases sound with
      | ready _ known =>
        obtain ⟨s, hs⟩ := Machine.exists_state?_of_mem_names known
        obtain ⟨call, branches, hat, htold⟩ := exists_visit replies hs made
        let v : Visit := ⟨name, s, doc', call, branches, shown⟩
        refine ⟨visits ++ [v], .next (v := v) h hs htold hat (ending_of_stepAt made), ?_⟩
        rw [List.flatMap_append, List.flatMap_singleton]
    | _ => cases hready
  | false =>
    cases h with
    | start => cases hready
    | idle =>
      obtain ⟨rfl, rfl⟩ := moved_created made
      exact ⟨[], .start, rfl⟩
    | @next visits v _ before declared told stands closed =>
      obtain ⟨call, branches, hat, htold⟩ := stands.move hready told honest made
      let w : Visit := { v with call, branches, seen := v.seen ++ shown }
      have hclosed : ending branch next <:+ w.seen :=
        (ending_of_stepAt made).trans (List.suffix_append v.seen shown)
      refine ⟨visits ++ [w], .next (v := w) before declared htold hat hclosed, ?_⟩
      rw [List.flatMap_append, List.flatMap_append, List.flatMap_singleton, List.flatMap_singleton,
        List.append_assoc]

/-- The walk of a chain can be told after any course from its start. -/
theorem Walk.course {last : Chain} {more : List Event}
    (h : Walk knows replies branch m doc visits c) (accepted : m.Accepted)
    (sound : c.Sound) (course : Course knows replies branch c more last) :
    ∃ further, Walk knows replies branch m doc further last ∧
      further.flatMap Visit.seen = visits.flatMap Visit.seen ++ more := by
  induction course generalizing visits with
  | rest c => exact ⟨visits, h, (List.append_nil _).symm⟩
  | step honest made further ih =>
    obtain ⟨visits', hwalk, hseen⟩ := h.move accepted sound honest made
    obtain ⟨visits'', hwalk', hseen'⟩ := ih hwalk (sound_stepAt sound made)
    refine ⟨visits'', hwalk', ?_⟩
    rw [hseen', hseen, List.append_assoc]

end ReminderFlow.Chain
