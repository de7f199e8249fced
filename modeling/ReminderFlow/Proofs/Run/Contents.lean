import ReminderFlow.Proofs.Run.Sound

namespace ReminderFlow

/-- The failure is that of a Fail state, with the error and cause it declares. -/
def Failure.IsRaised : Failure → Prop
  | raised _ _ => True
  | _ => False

namespace Chain

/-- Properties of the machines, documents and failures that chains hold. -/
structure Contents where
  machine : Machine → Prop
  document : Document → Prop
  failure : Failure → Prop

/-- Moves keep the properties, but for what Fail states give. -/
structure Contents.Kept (K : Contents) : Prop where
  branch : ∀ {m b : Machine} {name : String} {branches : List Machine} {strays : List Value}
    {next : Value}, K.machine m → m.state? name = some (.parallel branches strays next) →
    b ∈ branches → K.machine b
  set : ∀ {doc changed : Document} {path output : Datum}, K.document doc →
    doc.set path output = .ok changed → K.document changed
  list : ∀ docs : List Document, (∀ doc ∈ docs, K.document doc) →
    K.document ⟨.arr (docs.map Document.value)⟩
  foreseen : ∀ f : Failure, ¬f.IsRaised → K.failure f

/-- Every machine, document and failure in the tree of chains has the properties. -/
inductive Holds (K : Contents) : Chain → Prop
  | created {m : Machine} {doc : Document} (machine : K.machine m) (document : K.document doc) :
      Holds K (created m doc)
  | ready {m : Machine} {name : String} {doc : Document} (machine : K.machine m)
      (document : K.document doc) : Holds K (ready m name doc)
  | waiting {stop : Stop} {seconds : Number} (machine : K.machine stop.machine)
      (document : K.document stop.document) : Holds K (waiting stop seconds)
  | working {stop : Stop} {call : Call} {started : Bool} (machine : K.machine stop.machine)
      (document : K.document stop.document) : Holds K (working stop call started)
  | forked {stop : Stop} {branches : List Chain} (machine : K.machine stop.machine)
      (each : ∀ c ∈ branches, Holds K c) : Holds K (forked stop branches)
  | ended {result : Except Failure Document} (document : ∀ doc, result = .ok doc → K.document doc)
      (failure : ∀ f, result = .error f → K.failure f) : Holds K (ended result)

variable {K : Contents} {knows : String → Bool}

theorem holds_ended_ok {doc : Document} (h : K.document doc) : Holds K (.ended (.ok doc)) := by
  refine .ended (fun other heq => ?_) (fun f heq => ?_)
  · cases heq
    exact h
  · cases heq

theorem holds_fail {f : Failure} (h : K.failure f) : Holds K (fail f) := by
  refine .ended (fun doc heq => ?_) (fun g heq => ?_)
  · cases heq
  · cases heq
    exact h

theorem holds_jump (kept : K.Kept) {m : Machine} (hm : K.machine m) (target : Value)
    {doc : Document} (h : K.document doc) : Holds K (jump m target doc) := by
  cases target with
  | str name => exact .ready hm h
  | _ => exact holds_fail (kept.foreseen _ id)

theorem holds_follow (kept : K.Kept) {m : Machine} (hm : K.machine m) (next : Value)
    {doc : Document} (h : K.document doc) : Holds K (follow m next doc) := by
  unfold follow
  split_ifs
  · exact holds_ended_ok h
  · exact holds_jump kept hm next h

theorem not_isRaised_showing {make : String → Failure} (hmake : ∀ shown, ¬(make shown).IsRaised)
    (v : Value) : ¬(Failure.showing make v).IsRaised := by
  obtain ⟨shown, -, h⟩ | ⟨fault, -, h⟩ := Failure.showing_cases make v
  · rw [h]
    exact hmake shown
  · rw [h]
    exact id

theorem not_isRaised_ofDocumentError (e : DocumentError) : ¬(Failure.ofDocumentError e).IsRaised := by
  cases e <;> exact id

theorem not_isRaised_ofConditionError (e : ConditionError) :
    ¬(Failure.ofConditionError e).IsRaised := by
  cases e <;> exact id

theorem not_isRaised_of_get {doc : Document} {path : Datum} {f : Failure}
    (h : (doc.get path).mapError Failure.ofDocumentError = .error f) : ¬f.IsRaised := by
  cases hget : doc.get path with
  | ok v =>
    rw [hget] at h
    cases h
  | error e =>
    rw [hget] at h
    cases h
    exact not_isRaised_ofDocumentError e

theorem not_isRaised_of_choose {doc : Document} {default : Value} {rules : List Rule} {f : Failure}
    (h : choose doc default rules = .error f) : ¬f.IsRaised := by
  induction rules with
  | nil => cases h
  | cons r rest ih =>
    rw [choose] at h
    split at h
    · cases h
      exact not_isRaised_ofConditionError _
    · cases h
    · exact ih h

theorem not_isRaised_of_waitTime {secondsPath seconds : Value} {doc : Document} {f : Failure}
    (h : waitTime secondsPath seconds doc = .error f) : ¬f.IsRaised := by
  have hduration {given : Value} {failure : DurationFault → Failure}
      (hfailure : ∀ fault, ¬(failure fault).IsRaised)
      (hgiven : given.duration?.mapError failure = .error f) : ¬f.IsRaised := by
    cases ht : given.duration? with
    | ok t =>
      rw [ht] at hgiven
      cases hgiven
    | error fault =>
      rw [ht] at hgiven
      cases hgiven
      exact hfailure fault
  unfold waitTime at h
  split_ifs at h
  · cases hget : (doc.get (Datum.ofValue secondsPath)).mapError Failure.ofDocumentError with
    | error e =>
      rw [hget] at h
      cases h
      exact not_isRaised_of_get hget
    | ok given =>
      rw [hget] at h
      refine hduration (fun fault => ?_) h
      cases fault with
      | invalid => exact not_isRaised_showing (fun _ => id) given
      | tooLarge => exact id
  · refine hduration (fun fault => ?_) h
    cases fault with
    | invalid => exact not_isRaised_showing (fun _ => id) seconds
    | tooLarge => exact id

theorem not_isRaised_of_taskCall {resource inputPath outputPath : Value} {doc : Document}
    {f : Failure} (h : taskCall knows resource inputPath outputPath doc = .error f) :
    ¬f.IsRaised := by
  unfold taskCall at h
  split at h
  · split_ifs at h
    · cases hget : (doc.get (Datum.ofValue inputPath)).mapError Failure.ofDocumentError with
      | error e =>
        rw [hget] at h
        cases h
        exact not_isRaised_of_get hget
      | ok v =>
        rw [hget] at h
        cases h
    · cases h
      exact not_isRaised_showing (fun _ => id) _
  · cases h
    exact not_isRaised_showing (fun _ => id) _

theorem not_isRaised_refused (executor : String) (fault : Fault) :
    ¬(refused executor fault).IsRaised := by
  obtain ⟨cause, h⟩ | ⟨other, h⟩ := refused_cases executor fault <;> rw [h] <;> exact id

theorem not_isRaised_failed (executor : String) (fault : Fault) :
    ¬(failed executor fault).IsRaised := by
  obtain ⟨cause, -, h⟩ | ⟨other, -, h⟩ := failed_cases executor fault <;> rw [h] <;> exact id

theorem holds_enterState (kept : K.Kept) {m : Machine} {name : String} {doc : Document}
    (hm : K.machine m) (h : K.document doc) {s : State} (hs : m.state? name = some s)
    (hfail : ∀ cause error, s = .fail cause error → K.failure (.raised error cause)) :
    Holds K (enterState knows m name doc s) := by
  cases s with
  | succeed => exact holds_ended_ok h
  | fail cause error => exact holds_fail (hfail cause error rfl)
  | pass next => exact holds_follow kept hm next h
  | choice rules default =>
    rw [enterState]
    split
    · exact holds_jump kept hm _ h
    · rename_i f hf
      exact holds_fail (kept.foreseen f (not_isRaised_of_choose hf))
  | wait secondsPath seconds next =>
    rw [enterState]
    split
    · exact .waiting hm h
    · rename_i f hf
      exact holds_fail (kept.foreseen f (not_isRaised_of_waitTime hf))
  | task resource inputPath outputPath next =>
    rw [enterState]
    split
    · exact .working hm h
    · rename_i f hf
      exact holds_fail (kept.foreseen f (not_isRaised_of_taskCall hf))
  | parallel branches strays next =>
    refine .forked hm fun c hc => ?_
    obtain ⟨b, hb, rfl⟩ := List.mem_map.1 hc
    exact .created (kept.branch hm hs hb) h

theorem holds_take (kept : K.Kept) {stop : Stop} (call : Call) (hm : K.machine stop.machine)
    (h : K.document stop.document) (reply : Except Fault Datum) : Holds K (take stop call reply) := by
  cases reply with
  | error fault => exact holds_fail (kept.foreseen _ (not_isRaised_failed call.executor fault))
  | ok output =>
    rw [take, store]
    cases hdoc : stop.document.set (Datum.ofValue call.outputPath) output with
    | ok doc => exact holds_follow kept hm _ (kept.set h hdoc)
    | error e =>
      refine holds_fail (kept.foreseen _ ?_)
      cases e with
      | incompatible e => exact not_isRaised_refused call.executor e.fault
      | _ => exact not_isRaised_ofDocumentError _

theorem mem_of_mapM_ok {results : List (Except Failure Document)} {docs : List Document}
    (h : results.mapM id = .ok docs) {doc : Document} (hdoc : doc ∈ docs) : .ok doc ∈ results := by
  induction results generalizing docs with
  | nil =>
    cases h
    cases hdoc
  | cons r rest ih =>
    rw [List.mapM_cons] at h
    cases r with
    | error f => cases h
    | ok first =>
      cases hmore : rest.mapM id with
      | error f => simp [hmore, bind, Except.bind] at h
      | ok more =>
        simp only [id, hmore, bind, Except.bind, pure, Except.pure] at h
        cases h
        rcases List.mem_cons.1 hdoc with rfl | hdoc
        · exact List.mem_cons_self
        · exact List.mem_cons_of_mem _ (ih hmore hdoc)

theorem holds_joined (kept : K.Kept) {branches : List Chain}
    {results : List (Except Failure Document)} (each : ∀ c ∈ branches, Holds K c)
    (hresults : branches.mapM result? = some results) : Holds K (.ended (joined results)) := by
  have hresult {r : Except Failure Document} (hr : r ∈ results) : Holds K (.ended r) :=
    each _ (mem_of_results hresults hr)
  cases hjoined : joined results with
  | error f =>
    cases hresult (joined_error hjoined) with
    | ended document failure => exact holds_fail (failure f rfl)
  | ok doc =>
    obtain ⟨docs, hdocs, rfl⟩ := map_eq_ok_iff.1 hjoined
    refine holds_ended_ok (kept.list docs fun d hd => ?_)
    cases hresult (mem_of_mapM_ok hdocs hd) with
    | ended document failure => exact document d rfl

/-- What a Fail state that is entered gives has the property. -/
def FailsWith (F : Failure → Prop) (move : Move) (d : Chain) : Prop :=
  ∀ m name doc cause error, move = .enter → d = ready m name doc →
    m.state? name = some (.fail cause error) → F (.raised error cause)

theorem holds_move? (kept : K.Kept) {branch : String} {move : Move} {d next : Chain}
    {events : List Event} (h : Holds K d) (hfail : FailsWith K.failure move d)
    (hmove : move? knows branch move d = some (next, events)) : Holds K next := by
  unfold move? at hmove
  split at hmove
  case h_1 m doc =>
    cases hmove
    cases h with
    | created machine document => exact .ready machine document
  case h_2 m name doc =>
    cases h with
    | ready machine document =>
      split at hmove
      · rename_i s hs
        cases hmove
        refine holds_enterState kept machine document hs fun cause error heq => ?_
        subst heq
        exact hfail m name doc cause error rfl rfl hs
      · cases hmove
        exact holds_fail (kept.foreseen _ id)
  case h_3 stop seconds =>
    cases hmove
    cases h with
    | waiting machine document => exact holds_follow kept machine _ document
  case h_4 stop call =>
    cases hmove
    cases h with
    | working machine document => exact .working machine document
  case h_5 reply stop call =>
    cases hmove
    cases h with
    | working machine document => exact holds_take kept call machine document reply
  case h_6 stop branches =>
    obtain ⟨results, hresults, hnext⟩ := Option.map_eq_some_iff.1 hmove
    cases h with
    | forked machine each =>
      have hjoined := holds_joined kept each hresults
      split at hnext
      · rename_i doc hdoc
        cases hnext
        rw [hdoc] at hjoined
        cases hjoined with
        | ended document failure => exact holds_follow kept machine _ (document doc rfl)
      · rename_i f hf
        cases hnext
        rw [hf] at hjoined
        exact hjoined
  case h_7 => cases hmove

/-- Every move inside a tree keeps the properties. -/
theorem Holds.stepAt (kept : K.Kept) {move : Move} {address : List Nat} {branch : String}
    {c next : Chain} {events : List Event} (h : Holds K c)
    (hfail : ∀ d, c.at? address = some d → FailsWith K.failure move d)
    (made : Chain.stepAt knows move address branch c = some (next, events)) : Holds K next := by
  induction address generalizing branch c next events with
  | nil =>
    obtain ⟨⟨after, seen⟩, hmove, heq⟩ := Option.map_eq_some_iff.1 made
    cases heq
    exact holds_move? kept h (hfail c rfl) hmove
  | cons i rest ih =>
    cases h with
    | @forked stop branches machine each =>
      simp only [Chain.stepAt, Option.bind_eq_bind, Option.bind_eq_some_iff] at made
      obtain ⟨child, hchild, ⟨after, seen⟩, hafter, hnext⟩ := made
      cases hnext
      have hhere : ∀ d, child.at? rest = some d → FailsWith K.failure move d := by
        intro d hd
        apply hfail d
        rw [at?, hchild]
        exact hd
      have hnext := ih (each child (List.mem_of_getElem? hchild)) hhere hafter
      refine .forked machine fun d hd => ?_
      rcases List.mem_or_eq_of_mem_set hd with hd | rfl
      · exact each d hd
      · exact hnext
    | _ => simp [Chain.stepAt] at made

theorem Holds.at? {c d : Chain} {address : List Nat} (h : Holds K c) (hat : c.at? address = some d) :
    Holds K d := by
  induction address generalizing c with
  | nil =>
    cases hat
    exact h
  | cons i rest ih =>
    cases h with
    | forked machine each =>
      obtain ⟨child, hchild, hat⟩ := Option.bind_eq_some_iff.1 hat
      exact ih (each child (List.mem_of_getElem? hchild)) hat
    | _ => cases hat

end Chain

end ReminderFlow
