import ReminderFlow.Proofs.Run.Sound

namespace ReminderFlow.Chain

variable {knows : String → Bool} {replies : Replies} {branch : String} {k : Crash}

/-- Some chain of the tree has crashed. -/
def Crashed (c : Chain) (k : Crash) : Prop :=
  ∃ address, c.at? address = some (.ended (.error (.crash k)))

/-- A step of the tree in which one of its chains crashes by itself. -/
inductive Breaks (knows : String → Bool) (replies : Replies) (branch : String) (k : Crash) :
    Chain → List Event → Chain → Prop where
  | intro {address : List Nat} {move : Move} {c d next : Chain} {events : List Event}
      (honest : Honest replies address c move)
      (made : stepAt knows move address branch c = some (next, events))
      (here : c.at? address = some d) (provoked : d.Provokes move k) :
      Breaks knows replies branch k c events next

def IsLeaf : Chain → Prop
  | forked .. => False
  | _ => True

theorem isLeaf_follow (m : Machine) (next : Value) (doc : Document) : (follow m next doc).IsLeaf := by
  unfold follow jump
  split_ifs
  · trivial
  · split <;> trivial

theorem isLeaf_take (stop : Stop) (call : Call) (reply : Except Fault Datum) :
    (take stop call reply).IsLeaf := by
  unfold take
  split
  · trivial
  · split
    · exact isLeaf_follow _ _ _
    · trivial

/-- The chain has no branches, or only such as have not begun. -/
def IsNew (c : Chain) : Prop :=
  c.IsLeaf ∨ ∃ (stop : Stop) (machines : List Machine) (doc : Document),
    c = forked stop (machines.map fun b => created b doc)

theorem isNew_enterState (m : Machine) (name : String) (doc : Document)
    (s : State) : (enterState knows m name doc s).IsNew := by
  cases s with
  | parallel branches strays next => exact .inr ⟨_, branches, doc, rfl⟩
  | pass next => exact .inl (isLeaf_follow _ _ _)
  | succeed => exact .inl trivial
  | fail cause error => exact .inl trivial
  | choice rules default =>
    left
    rw [enterState]
    split
    · unfold jump
      split <;> trivial
    · trivial
  | wait secondsPath seconds next =>
    left
    rw [enterState]
    split <;> trivial
  | task resource inputPath outputPath next =>
    left
    rw [enterState]
    split <;> trivial

theorem isNew_of_move? {move : Move} {d next : Chain} {events : List Event}
    (hmove : move? knows branch move d = some (next, events)) :
    next.IsNew := by
  unfold move? at hmove
  split at hmove
  case h_2 m name doc =>
    split at hmove <;> cases hmove
    · exact isNew_enterState _ _ _ _
    · exact .inl trivial
  case h_6 stop branches =>
    obtain ⟨results, -, hnext⟩ := Option.map_eq_some_iff.1 hmove
    split at hnext <;> cases hnext
    · exact .inl (isLeaf_follow _ _ _)
    · exact .inl trivial
  case h_7 => cases hmove
  all_goals cases hmove
  case h_3 => exact .inl (isLeaf_follow _ _ _)
  case h_5 => exact .inl (isLeaf_take _ _ _)
  all_goals exact .inl trivial

theorem crashed_of_move? {move : Move} {d next : Chain} {events : List Event}
    (hmove : move? knows branch move d = some (next, events)) (h : next.Crashed k) :
    next = .ended (.error (.crash k)) := by
  obtain ⟨address, hat⟩ := h
  rcases isNew_of_move? hmove with hleaf | ⟨stop, machines, doc, rfl⟩
  · cases address with
    | nil => exact Option.some.inj hat
    | cons i rest => cases next <;> first | exact hleaf.elim | cases hat
  · cases address with
    | nil => cases hat
    | cons i rest =>
      obtain ⟨child, hchild, hat⟩ := Option.bind_eq_some_iff.1 hat
      obtain ⟨b, -, rfl⟩ := List.mem_map.1 (List.mem_of_getElem? hchild)
      cases rest <;> cases hat

/-- What has crashed after a step had crashed before, or the chain that moved has provoked it. -/
theorem crashed_stepAt {move : Move} {address : List Nat} {c next : Chain} {events : List Event}
    (h : c.Sound) (hmade : stepAt knows move address branch c = some (next, events))
    (hcrashed : next.Crashed k) :
    c.Crashed k ∨ ∃ d, c.at? address = some d ∧ d.Provokes move k := by
  induction address generalizing branch c next with
  | nil =>
    obtain ⟨⟨after, seen⟩, hmove, heq⟩ := Option.map_eq_some_iff.1 hmade
    cases heq
    have hk := crashed_of_move? hmove hcrashed
    rcases (sound_move? h hmove).2 k hk with hprovoked | ⟨-, stop, branches, rfl, hmem⟩
    · exact .inr ⟨c, rfl, hprovoked⟩
    · obtain ⟨i, hi⟩ := List.getElem?_of_mem hmem
      exact .inl ⟨[i], by simp [Chain.at?, hi]⟩
  | cons i rest ih =>
    cases h with
    | @forked stop branches here each =>
      simp only [stepAt, Option.bind_eq_bind, Option.bind_eq_some_iff] at hmade
      obtain ⟨child, hchild, ⟨after, seen⟩, hafter, hnext⟩ := hmade
      cases hnext
      obtain ⟨place, hat⟩ := hcrashed
      cases place with
      | nil => cases hat
      | cons j more =>
        obtain ⟨d, hd, hat⟩ := Option.bind_eq_some_iff.1 hat
        by_cases hij : i = j
        · subst hij
          rw [List.getElem?_set_self (List.getElem?_eq_some_iff.1 hchild).1] at hd
          cases hd
          have hsound := each child (List.mem_of_getElem? hchild)
          rcases ih hsound hafter ⟨more, hat⟩ with ⟨there, hc⟩ | ⟨d, hd, hprovoked⟩
          · exact .inl ⟨i :: there, by simp [Chain.at?, hchild, hc]⟩
          · exact .inr ⟨d, by simp [Chain.at?, hchild, hd], hprovoked⟩
        · rw [List.getElem?_set_ne hij] at hd
          exact .inl ⟨j :: more, by simp [Chain.at?, hd, hat]⟩
    | _ => simp [stepAt] at hmade

/-- A course that leads to a crash has come by a step in which a chain crashed by itself. -/
theorem breaks_of_course {c last : Chain} {events : List Event} (h : c.Sound)
    (hfine : ¬c.Crashed k) (course : Course knows replies branch c events last)
    (hcrashed : last.Crashed k) :
    ∃ before seen after d next, events = before ++ (seen ++ after) ∧
      Course knows replies branch c before d ∧ Breaks knows replies branch k d seen next ∧
      Course knows replies branch next after last := by
  induction course with
  | rest => exact absurd hcrashed hfine
  | @step address move c next last events more honest made further ih =>
    by_cases hnext : next.Crashed k
    · rcases crashed_stepAt h made hnext with hc | ⟨d, hd, hprovoked⟩
      · exact absurd hc hfine
      · exact ⟨[], events, more, c, next, rfl, .rest c, .intro honest made hd hprovoked, further⟩
    · obtain ⟨before, seen, after, d, last, rfl, hbefore, hbreaks, hafter⟩ :=
        ih (sound_stepAt h made) hnext hcrashed
      exact ⟨events ++ before, seen, after, d, last, (List.append_assoc ..).symm,
        .step honest made hbefore, hbreaks, hafter⟩

/-- The state has what it needs in a document: a choice has a default, a wait that names no time has
a path, paths are paths, and conditions ask for nothing but what may be missing. -/
def GuardedState (doc : Document) : State → Prop
  | .choice rules default => default ≠ .null ∧
      ∀ r ∈ rules, ∀ e, r.condition.holds doc = .error e → ∃ p, e = .notFound p
  | .wait secondsPath seconds _ => seconds = .null → secondsPath ≠ .null ∧ secondsPath.IsPath
  | .task _ inputPath outputPath _ => inputPath.IsPath ∧ outputPath.IsPath
  | _ => True

/-- What a chain is guarded against, wherever it is in the tree: it enters no state that is not
there and none that lacks what it needs, it writes at no text that is no path, and it ends with no
failure but those that have a code, the crash of a wait for too long, and what is raised from
outside. It crashes only if it provokes it or by joining a branch that has crashed, and always if it
provokes it. -/
structure Guarded (d : Chain) : Prop where
  enters : ∀ m name doc, d = ready m name doc → ∃ s, m.state? name = some s ∧ GuardedState doc s
  writes : ∀ stop call started, d = working stop call started → call.outputPath.IsPath
  fails : ∀ f, d = .ended (.error f) →
    f.Foreseen ∨ f = .crash .numberTooLarge ∨ ∃ fault, f = .crash (.outside fault)
  crashes : ∀ knows branch move next events k,
    move? knows branch move d = some (next, events) → next = .ended (.error (.crash k)) →
      d.Excused move k
  provoked : ∀ move k, d.Provokes move k → ∀ knows branch, ∃ events,
    move? knows branch move d = some (.ended (.error (.crash k)), events)

theorem Provokes.move? {d : Chain} {move : Move} (h : d.Provokes move k) (knows : String → Bool)
    (branch : String) :
    ∃ events, Chain.move? knows branch move d = some (.ended (.error (.crash k)), events) := by
  cases h with
  | @tooLong m name doc secondsPath seconds next here long =>
    refine ⟨[.entered branch name "Wait"], ?_⟩
    simp only [Chain.move?, here, enterState, waitTime_of_longWait long, fail, State.type]
  | @unshown m name doc secondsPath seconds next v fault here aimless shown =>
    refine ⟨[.entered branch name "Wait"], ?_⟩
    simp only [Chain.move?, here, enterState, waitTime_of_aimlessWait aimless,
      Failure.showing_of_error shown, fail, State.type]
  | @raised stop call given fault told =>
    refine ⟨refusal branch call.executor (.error given), ?_⟩
    simp only [Chain.move?, take, failed, told, fail]
  | returned refuses told =>
    refine ⟨[], ?_⟩
    simp only [Chain.move?, take, store_of_set_error refuses, told, fail, refusal]

theorem guardedState_of_wellFormed {s : State} (h : s.WellFormed) (doc : Document) :
    GuardedState doc s := by
  cases s with
  | choice rules default =>
    obtain ⟨-, hdefault, hrules⟩ := h
    exact ⟨hdefault, fun r hr e he => Condition.holds_error r.condition (hrules r hr) he⟩
  | wait secondsPath seconds next =>
    intro hnull
    rcases h with ⟨hne, -, hpath⟩ | ⟨-, hne, -⟩
    · exact ⟨hne, hpath⟩
    · exact absurd hnull hne
  | task resource inputPath outputPath next =>
    obtain ⟨-, hinput, houtput⟩ := h
    exact ⟨hinput, houtput⟩
  | _ => trivial

theorem Sound.guarded {d : Chain} (h : d.Sound) : d.Guarded := by
  refine ⟨?_, ?_, ?_, ?_, ?_⟩
  · rintro m name doc rfl
    cases h with
    | ready accepted known =>
      obtain ⟨s, hs⟩ := Machine.exists_state?_of_mem_names known
      have hfields := accepted.locallyWellFormed.fields _ (Machine.mem_states_of_state? hs)
      exact ⟨s, hs, guardedState_of_wellFormed hfields doc⟩
  · rintro stop call started rfl
    cases h with
    | working here output => exact output
  · rintro f rfl
    cases h with
    | ended allowed => exact allowed f rfl
  · intro knows branch move next events k hmove
    exact (sound_move? h hmove).2 k
  · exact fun move k hprovoked => hprovoked.move?

end ReminderFlow.Chain
