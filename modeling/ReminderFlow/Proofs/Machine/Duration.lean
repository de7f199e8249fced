import ReminderFlow.Proofs.Machine.Breakdown
import ReminderFlow.Proofs.Number.Rational

namespace ReminderFlow

namespace Value

/-- A whole number that is no finite double. -/
def IsBeyondDoubles : Value → Prop
  | int n => fitsDouble n = false
  | _ => False

theorem duration?_tooLarge_iff {v : Value} :
    v.duration? = .error .tooLarge ↔ v.IsBeyondDoubles := by
  constructor
  · intro h
    obtain ⟨n, rfl, hfits⟩ := Chain.duration?_tooLarge h
    exact hfits
  · intro h
    cases v with
    | int n =>
      have hfits : fitsDouble n = false := h
      simp only [duration?, hfits, Bool.not_false, if_true]
    | _ => exact h.elim

theorem duration?_invalid_iff {v : Value} :
    v.duration? = .error .invalid ↔ ¬v.IsDuration ∧ ¬v.IsBeyondDoubles := by
  rw [← duration?_eq_ok_iff, ← duration?_tooLarge_iff]
  rcases v.duration? with (_ | _) | t <;> simp

/-- A duration is a finite number, other than true and false, that is not negative and not beyond
the doubles. -/
theorem isDuration_iff {v : Value} : v.IsDuration ↔
    (∃ q, v.number?.bind Number.toRat? = some q ∧ 0 ≤ q) ∧ ¬v.IsBeyondDoubles := by
  cases v with
  | int n =>
    have hvalue : (int n).number?.bind Number.toRat? = some (n : ℚ) := rfl
    rw [hvalue]
    simp only [IsDuration, IsBeyondDoubles, Option.some.injEq, exists_eq_left', Int.cast_nonneg_iff,
      Bool.not_eq_false]
    exact and_comm
  | float x =>
    cases x with
    | finite negative rank =>
      let size := (Double.finite negative rank).scaled
      have hvalue : (float (.finite negative rank)).number?.bind Number.toRat? =
          some ((size : ℚ) / (twoTo Double.unitExponent : ℕ)) := rfl
      have hsign : (0 : ℚ) ≤ size / (twoTo Double.unitExponent : ℕ) ↔ 0 ≤ size := by
        rw [le_div_iff₀ (Number.cast_twoTo_pos _), zero_mul, Int.cast_nonneg_iff]
      rw [hvalue]
      simp only [IsDuration, IsBeyondDoubles, Option.some.injEq, exists_eq_left', hsign,
        Double.isFinite, true_and, not_false_eq_true, and_true, size]
    | _ => simp [IsDuration, number?, Number.toRat?, Double.isFinite]
  | _ => simp [IsDuration, number?]

end Value

namespace State

/-- What a fixed duration that is none is refused as; null counts as not given. -/
def durationError (name : String) (given : Value) : MachineError :=
  if given.isNull then .waitSource name else .waitDuration name

theorem code?_durationError (name : String) (given : Value) :
    (durationError name given).code? = some "States.DefinitionInvalid" := by
  unfold durationError
  split <;> rfl

/-- The check of a wait that is given a value and no path. -/
theorem checkWait_fixed (name : String) (given : Value) :
    checkWait name .null given = match given.duration? with
      | .ok _ => .ok ()
      | .error .tooLarge => .error .numberTooLarge
      | .error .invalid => .error (durationError name given) := by
  cases hnull : given.isNull with
  | true =>
    obtain rfl := Value.isNull_iff.1 hnull
    rfl
  | false =>
    have hnone : Value.null.isNull = true := rfl
    simp only [checkWait, durationError, hnull, hnone]
    rcases given.duration? with (_ | _) | t <;> rfl

end State

namespace Machine

theorem checkStates_insert {names : List String} {states : List (String × State)} {name : String}
    {s t : State} (h : checkStates names states = .ok ()) (hs : states.lookup name = some s)
    (hnext : t.successors = s.successors) :
    checkStates names (Members.insert name t states) = t.checkFields name := by
  induction states with
  | nil => cases hs
  | cons p rest ih =>
    obtain ⟨k, u⟩ := p
    obtain ⟨hfields, htargets⟩ := andThen_eq_ok_iff.1 h
    obtain ⟨htargets, hrest⟩ := andThen_eq_ok_iff.1 htargets
    by_cases hk : k = name
    · subst hk
      obtain rfl : u = s := by simpa using hs
      rw [Members.insert, if_pos rfl, checkStates, hnext, htargets, hrest]
      cases t.checkFields k <;> rfl
    · rw [List.lookup_cons, beq_eq_false_iff_ne.2 (Ne.symm hk)] at hs
      rw [Members.insert, if_neg hk, checkStates, hfields, htargets, ih hrest hs]
      rfl

def withState (m : Machine) (name : String) (s : State) : Machine :=
  mk m.start (Members.insert name s m.states) m.comment

section WithState

variable {m : Machine} {name : String} {s t : State}

theorem names_withState (hs : m.state? name = some s) : (m.withState name t).names = m.names :=
  Members.keys_insert_of_mem t (mem_names_of_state? hs)

theorem leads_withState (hs : m.state? name = some s) (hnext : t.successors = s.successors) :
    (m.withState name t).leads = m.leads := by
  funext a b
  have hother (h : a ≠ name) : (m.withState name t).state? a = m.state? a :=
    Members.lookup_insert_of_ne h t m.states
  have hself : (m.withState name t).state? name = some t :=
    Members.lookup_insert_self name t m.states
  unfold leads
  by_cases ha : a = name
  · subst ha
    rw [hs, hself]
    simp only [hnext]
  · rw [hother ha]

theorem terminals_withState (hs : m.state? name = some s) (hlast : t.isTerminal = s.isTerminal) :
    (m.withState name t).terminals = m.terminals := by
  have hall (states : List (String × State)) (h : states.lookup name = some s) :
      ((Members.insert name t states).filter fun p => p.2.isTerminal).map (·.1) =
        (states.filter fun p => p.2.isTerminal).map (·.1) := by
    induction states with
    | nil => cases h
    | cons p rest ih =>
      obtain ⟨k, u⟩ := p
      by_cases hk : k = name
      · subst hk
        obtain rfl : u = s := by simpa using h
        rw [Members.insert, if_pos rfl, List.filter_cons, List.filter_cons, hlast]
        split <;> rfl
      · rw [List.lookup_cons, beq_eq_false_iff_ne.2 (Ne.symm hk)] at h
        rw [Members.insert, if_neg hk, List.filter_cons, List.filter_cons]
        split
        · rw [List.map_cons, List.map_cons, ih h]
        · exact ih h
  exact hall m.states hs

theorem checkGraph_withState (hs : m.state? name = some s) (hnext : t.successors = s.successors)
    (hlast : t.isTerminal = s.isTerminal) : (m.withState name t).checkGraph = m.checkGraph := by
  have hunreachable : (m.withState name t).unreachable = m.unreachable := by
    rw [unreachable, unreachable, leads_withState hs hnext, names_withState hs]
    rfl
  have hendless : (m.withState name t).endless = m.endless := by
    rw [endless, endless, leads_withState hs hnext, names_withState hs, terminals_withState hs hlast]
  rw [checkGraph, checkGraph, hunreachable, hendless]

/-- A machine that passes its checks passes them with another state in the place of one with the
same successors, if and as far as the fields of that state pass theirs. -/
theorem check_withState (h : m.check = .ok ()) (hs : m.state? name = some s)
    (hnext : t.successors = s.successors) (hlast : t.isTerminal = s.isTerminal) :
    (m.withState name t).check = t.checkFields name := by
  have hlocal := locallyWellFormed_of_check h
  have hgraph : m.checkGraph = .ok () := by rw [← check_of_locallyWellFormed hlocal, h]
  have hstates : checkStates m.names m.states = .ok () :=
    checkStates_eq_ok_iff.2 fun p hp => ⟨hlocal.fields p hp, hlocal.targets p hp⟩
  have hempty : (m.withState name t).states.isEmpty = false := by
    refine List.isEmpty_eq_false_iff.2 (List.ne_nil_of_mem (a := (name, t)) ?_)
    exact Members.mem_of_lookup (Members.lookup_insert_self name t m.states)
  have hstart : m.names.contains (m.withState name t).start = true :=
    List.contains_iff_mem.2 hlocal.start
  have hchecked : checkStates m.names (m.withState name t).states = t.checkFields name :=
    checkStates_insert hstates hs hnext
  rw [check, hempty, names_withState hs, hstart, hchecked, checkGraph_withState hs hnext hlast,
    hgraph]
  cases t.checkFields name <;> rfl

end WithState

theorem stateList_insert {members : List (String × Value)} {states : List (String × State)}
    {name : String} {v : Value} (h : stateList members = .ok states)
    (hv : members.lookup name = some v) :
    ∃ s, stateOf name v = .ok s ∧ states.lookup name = some s ∧
      ∀ w, stateList (Members.insert name w members) =
        (stateOf name w).map fun t => Members.insert name t states := by
  induction members generalizing states with
  | nil => cases hv
  | cons p rest ih =>
    obtain ⟨k, u⟩ := p
    rw [stateList] at h
    obtain ⟨s, hu, h⟩ := bind_eq_ok_iff.1 h
    obtain ⟨more, hmore, h⟩ := bind_eq_ok_iff.1 h
    cases h
    by_cases hk : k = name
    · subst hk
      obtain rfl : u = v := by simpa using hv
      refine ⟨s, hu, List.lookup_cons_self, fun w => ?_⟩
      rw [Members.insert, if_pos rfl, stateList, hmore]
      cases stateOf k w with
      | error e => rfl
      | ok t =>
        simp only [Except.map, Members.insert, if_true]
        rfl
    · have hne : (name == k) = false := beq_eq_false_iff_ne.2 (Ne.symm hk)
      rw [List.lookup_cons, hne] at hv
      obtain ⟨t, ht, hlookup, hset⟩ := ih hmore hv
      refine ⟨t, ht, by rwa [List.lookup_cons, hne], fun w => ?_⟩
      rw [Members.insert, if_neg hk, stateList, hu, hset w]
      cases stateOf name w with
      | error e => rfl
      | ok t =>
        simp only [Except.map, Members.insert, if_neg hk]
        rfl

theorem machineList_set {items : List Value} {machines : List Machine} {i : Nat} {v : Value}
    (h : machineList items = .ok machines) (hv : items[i]? = some v) :
    ∃ m, ofJson v = .ok m ∧
      ∀ w, machineList (items.set i w) = (ofJson w).map fun b => machines.set i b := by
  induction items generalizing machines i with
  | nil => cases hv
  | cons u rest ih =>
    rw [machineList] at h
    obtain ⟨m, hu, h⟩ := bind_eq_ok_iff.1 h
    obtain ⟨more, hmore, h⟩ := bind_eq_ok_iff.1 h
    cases h
    cases i with
    | zero =>
      obtain rfl := Option.some.inj hv
      refine ⟨m, hu, fun w => ?_⟩
      rw [List.set_cons_zero, machineList, hmore]
      cases ofJson w <;> rfl
    | succ i =>
      obtain ⟨b, hb, hset⟩ := ih hmore hv
      refine ⟨b, hb, fun w => ?_⟩
      rw [List.set_cons_succ, machineList, hu, hset w]
      cases ofJson w <;> rfl

/-- A definition is read with another state of the same name as it was before, but for that
state. -/
theorem ofJson_setState {machine states : List (String × Value)} {name : String} {v : Value}
    {m : Machine} (h : ofJson (.obj machine) = .ok m)
    (hstates : machine.lookup "States" = some (.obj states)) (hv : states.lookup name = some v) :
    ∃ s, stateOf name v = .ok s ∧ m.state? name = some s ∧ m.check = .ok () ∧
      ∀ w, ofJson (.obj (Members.insert "States" (.obj (Members.insert name w states)) machine)) =
        stateOf name w >>= fun t =>
          (m.withState name t).check.map fun _ => m.withState name t := by
  rw [ofJson] at h
  split at h
  case h_2 => cases h
  case h_1 start hstart =>
    have hnonempty (w : Value) : (Members.insert name w states).isEmpty = false := by
      refine List.isEmpty_eq_false_iff.2 (List.ne_nil_of_mem (a := (name, w)) ?_)
      exact Members.mem_of_lookup (Members.lookup_insert_self name w states)
    have hstates_nonempty : states.isEmpty = false :=
      List.isEmpty_eq_false_iff.2 (List.ne_nil_of_mem (Members.mem_of_lookup hv))
    obtain ⟨read, hread, hmake⟩ := bind_eq_ok_iff.1 h
    rw [statesIn_eq, hstates, Option.map_some, Option.getD_some, statesOf, hstates_nonempty] at hread
    obtain ⟨hcheck, rfl⟩ := (make?_eq_ok_iff (m := mk start read (commentOf machine))).1 hmake
    obtain ⟨s, hs, hlookup, hset⟩ := stateList_insert hread hv
    refine ⟨s, hs, hlookup, hcheck, fun w => ?_⟩
    have hother {key : String} (hne : key ≠ "States") (c : Value) :
        (Members.insert "States" c machine).lookup key = machine.lookup key :=
      Members.lookup_insert_of_ne hne c machine
    rw [ofJson, hother (by decide), hstart, statesIn_eq, Members.lookup_insert_self,
      Option.map_some, Option.getD_some, statesOf, hnonempty w, commentOf, hother (by decide)]
    simp only [Bool.false_eq_true, if_false, hset w]
    cases stateOf name w <;> rfl

/-- The path from a definition to a wait with a fixed duration, which may be in a branch. -/
inductive WaitAt (name : String) : List Token → Value → Prop
  | here {machine states members : List (String × Value)}
      (found : machine.lookup "States" = some (.obj states))
      (state : states.lookup name = some (.obj members))
      (type : memberOrNull members "Type" = .str "Wait")
      (fixed : memberOrNull members "SecondsPath" = .null) :
      WaitAt name [.name "States", .name name] (.obj machine)
  | branch {machine states members : List (String × Value)} {outer : String} {items : List Value}
      {i : Nat} {b : Value} {path : List Token}
      (found : machine.lookup "States" = some (.obj states))
      (state : states.lookup outer = some (.obj members))
      (type : memberOrNull members "Type" = .str "Parallel")
      (branches : members.lookup "Branches" = some (.arr items)) (chosen : items[i]? = some b)
      (inner : WaitAt name path b) :
      WaitAt name (.name "States" :: .name outer :: .name "Branches" :: .index i :: path)
        (.obj machine)

theorem memberOrNull_insert_of_ne {key other : String} (h : other ≠ key) (v : Value)
    (members : List (String × Value)) :
    memberOrNull (Members.insert key v members) other = memberOrNull members other := by
  rw [memberOrNull, memberOrNull, Members.lookup_insert_of_ne h]

theorem stateOf_of_wait {members : List (String × Value)} (name : String)
    (htype : memberOrNull members "Type" = .str "Wait") :
    stateOf name (.obj members) = .ok (.wait (memberOrNull members "SecondsPath")
      (memberOrNull members "Seconds") (memberOrNull members "Next")) := by
  rw [stateOf, State.plainOfMembers, htype]
  rfl

theorem stateOf_setSeconds {members : List (String × Value)} (name : String)
    (htype : memberOrNull members "Type" = .str "Wait")
    (hfixed : memberOrNull members "SecondsPath" = .null) (x : Value) :
    stateOf name (.obj (Members.insert "Seconds" x members)) =
      .ok (.wait .null x (memberOrNull members "Next")) := by
  have hother (key : String) (hne : key ≠ "Seconds") :
      memberOrNull (Members.insert "Seconds" x members) key = memberOrNull members key :=
    memberOrNull_insert_of_ne hne x members
  have hself : memberOrNull (Members.insert "Seconds" x members) "Seconds" = x := by
    rw [memberOrNull, Members.lookup_insert_self, Option.getD_some]
  rw [stateOf_of_wait name ((hother "Type" (by decide)).trans htype), hself,
    hother "SecondsPath" (by decide), hother "Next" (by decide), hfixed]

theorem stateOf_of_parallel {members : List (String × Value)} {items : List Value} (name : String)
    (htype : memberOrNull members "Type" = .str "Parallel")
    (hbranches : members.lookup "Branches" = some (.arr items)) :
    stateOf name (.obj members) =
      (machineList items).map fun bs => .parallel bs [] (memberOrNull members "Next") := by
  rw [stateOf, htype, branchesIn_eq, hbranches, Option.map_some, Option.getD_some, branchesOf]
  cases machineList items <;> rfl

theorem stateOf_setBranches {members : List (String × Value)} (name : String)
    (htype : memberOrNull members "Type" = .str "Parallel") (items : List Value) :
    stateOf name (.obj (Members.insert "Branches" (.arr items) members)) =
      (machineList items).map fun bs => .parallel bs [] (memberOrNull members "Next") := by
  have hother (key : String) (hne : key ≠ "Branches") :
      memberOrNull (Members.insert "Branches" (.arr items) members) key = memberOrNull members key :=
    memberOrNull_insert_of_ne hne _ members
  rw [stateOf_of_parallel name ((hother "Type" (by decide)).trans htype)
    (Members.lookup_insert_self ..), hother "Next" (by decide)]

/-- With another duration for a wait the definition is refused if and as that wait is. -/
theorem ofJson_setSeconds {name : String} {path : List Token} {v : Value} (hwait : WaitAt name path v)
    {m : Machine} (h : ofJson v = .ok m) (x : Value) :
    ∃ w changed, Value.setAt x (path ++ [.name "Seconds"]) v = some w ∧
      ofJson w = (State.checkWait name .null x).map fun _ => changed := by
  induction hwait generalizing m with
  | @here machine states members hstates hstate htype hfixed =>
    obtain ⟨s, hs, hlookup, hcheck, hset⟩ := ofJson_setState h hstates hstate
    rw [stateOf_of_wait name htype] at hs
    cases hs
    let t : State := .wait .null x (memberOrNull members "Next")
    have hchecked : (m.withState name t).check = State.checkWait name .null x :=
      check_withState hcheck hlookup rfl rfl
    refine ⟨_, m.withState name t, ?_, (hset (.obj (Members.insert "Seconds" x members))).trans ?_⟩
    · simp [Value.setAt, hstates, hstate]
    · rw [stateOf_setSeconds name htype hfixed, ← hchecked]
      rfl
  | @branch machine states members outer items i b path hstates hstate htype hbranches hchosen _ ih =>
    obtain ⟨s, hs, hlookup, hcheck, hset⟩ := ofJson_setState h hstates hstate
    rw [stateOf_of_parallel outer htype hbranches] at hs
    obtain ⟨machines, hmachines, rfl⟩ := map_eq_ok_iff.1 hs
    obtain ⟨inner, hinner, hsetItem⟩ := machineList_set hmachines hchosen
    obtain ⟨w, changed, hw, hread⟩ := ih hinner
    let t : State := .parallel (machines.set i changed) [] (memberOrNull members "Next")
    have hfields : t.checkFields outer = .ok () := by
      obtain ⟨hnonempty, -⟩ :=
        (locallyWellFormed_of_check hcheck).fields _ (mem_states_of_state? hlookup)
      refine (State.checkFields_eq_ok_iff outer).2 ⟨?_, rfl⟩
      rwa [Ne, List.set_eq_nil_iff]
    have hchecked : (m.withState outer t).check = .ok () :=
      (check_withState (t := t) hcheck hlookup rfl rfl).trans hfields
    refine ⟨_, m.withState outer t, ?_,
      (hset (.obj (Members.insert "Branches" (.arr (items.set i w)) members))).trans ?_⟩
    · simp [Value.setAt, hstates, hstate, hbranches, hchosen, hw]
    · rw [stateOf_setBranches outer htype, hsetItem w, hread]
      cases State.checkWait name .null x with
      | error e => rfl
      | ok _ =>
        change (m.withState outer t).check.map (fun _ => m.withState outer t) = _
        rw [hchecked]

end Machine

end ReminderFlow
