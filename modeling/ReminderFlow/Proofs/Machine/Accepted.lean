import ReminderFlow.Machine.Reminder
import ReminderFlow.Proofs.Machine.WellFormed

namespace ReminderFlow.Machine

/-- The machine has been made out of its parts, and so have the machines in its parallel states. -/
inductive Accepted : Machine → Prop
  | intro {m : Machine} (made : make? m.start m.states m.comment = .ok m)
      (named : ∀ name resource inputPath outputPath next,
        (name, State.task resource inputPath outputPath next) ∈ m.states → ∃ s, resource = .str s)
      (inner : ∀ name branches strays next,
        (name, State.parallel branches strays next) ∈ m.states → ∀ b ∈ branches, Accepted b) :
      Accepted m

theorem Accepted.locallyWellFormed {m : Machine} (h : m.Accepted) : m.LocallyWellFormed := by
  cases h with
  | intro made => exact locallyWellFormed_of_check (make?_eq_ok_iff.1 made).1

/-- What is to be said of one state of an accepted machine beyond its checks. -/
def AcceptedParts : State → Prop
  | .task resource _ _ _ => ∃ s, resource = .str s
  | .parallel branches _ _ => ∀ b ∈ branches, b.Accepted
  | _ => True

theorem Accepted.of_parts {m : Machine} (passed : m.check = .ok ())
    (h : ∀ p ∈ m.states, AcceptedParts p.2) : m.Accepted :=
  .intro (make?_eq_ok_iff.2 ⟨passed, rfl⟩) (fun _ _ _ _ _ hmem => h _ hmem) (fun _ _ _ _ hmem => h _ hmem)

theorem Accepted.parts {m : Machine} (h : m.Accepted) : ∀ p ∈ m.states, AcceptedParts p.2 := by
  rintro ⟨name, s⟩ hmem
  cases h with
  | intro made named inner =>
    cases s with
    | task resource inputPath outputPath next => exact named _ _ _ _ _ hmem
    | parallel branches strays next => exact inner _ _ _ _ hmem
    | _ => trivial

theorem accepted_singleTask {name resource : String}
    (h : (singleTask name resource).check = .ok ()) : (singleTask name resource).Accepted := by
  refine .of_parts h fun p hp => ?_
  obtain rfl := List.mem_singleton.1 hp
  exact ⟨resource, rfl⟩

theorem acceptedParts_of_plainOfMembers {name : String} {members : List (String × Value)}
    {s : State} (h : State.plainOfMembers name members = .ok s) : AcceptedParts s := by
  unfold State.plainOfMembers at h
  dsimp only at h
  split at h
  · cases h
    trivial
  · unfold State.taskOfMembers at h
    split at h
    · split_ifs at h
      cases h
      exact ⟨_, rfl⟩
    · cases h
  · unfold State.choiceOfMembers at h
    split at h
    · obtain ⟨rules, -, h⟩ := map_eq_ok_iff.1 h
      cases h
      trivial
    · cases h
  · cases h
    trivial
  · cases h
    trivial
  · cases h
    trivial
  · cases h

mutual

/-- Whatever can be read as a machine is accepted. -/
theorem accepted_of_ofJson : (v : Value) → {m : Machine} → ofJson v = .ok m → m.Accepted
  | .obj members, m, h => by
    rw [ofJson] at h
    split at h
    · obtain ⟨states, hstates, hmake⟩ := bind_eq_ok_iff.1 h
      obtain ⟨passed, hmade⟩ := andThen_eq_ok_iff.1 hmake
      cases hmade
      exact .of_parts passed (acceptedParts_of_statesIn members hstates)
    · cases h
  | .null, _, h | .bool _, _, h | .int _, _, h | .float _, _, h | .str _, _, h
  | .arr _, _, h => by simp [ofJson] at h

theorem acceptedParts_of_statesIn : (members : List (String × Value)) →
    {states : List (String × State)} → statesIn members = .ok states →
    ∀ p ∈ states, AcceptedParts p.2
  | [], states, h => by cases h
  | (k, v) :: rest, states, h => by
    rw [statesIn] at h
    split_ifs at h
    · exact acceptedParts_of_statesOf v h
    · exact acceptedParts_of_statesIn rest h

theorem acceptedParts_of_statesOf : (v : Value) →
    {states : List (String × State)} → statesOf v = .ok states →
    ∀ p ∈ states, AcceptedParts p.2
  | .obj members, states, h => by
    rw [statesOf] at h
    split_ifs at h
    exact acceptedParts_of_stateList members h
  | .null, _, h | .bool _, _, h | .int _, _, h | .float _, _, h | .str _, _, h
  | .arr _, _, h => by simp [statesOf] at h

theorem acceptedParts_of_stateList : (members : List (String × Value)) →
    {states : List (String × State)} → stateList members = .ok states →
    ∀ p ∈ states, AcceptedParts p.2
  | [], states, h => by
    cases h
    simp
  | (name, v) :: rest, states, h => by
    rw [stateList] at h
    obtain ⟨s, hs, h⟩ := bind_eq_ok_iff.1 h
    obtain ⟨more, hmore, h⟩ := bind_eq_ok_iff.1 h
    cases h
    rw [List.forall_mem_cons]
    exact ⟨acceptedParts_of_stateOf name v hs, acceptedParts_of_stateList rest hmore⟩

theorem acceptedParts_of_stateOf (name : String) : (v : Value) → {s : State} →
    stateOf name v = .ok s → AcceptedParts s
  | .obj members, s, h => by
    rw [stateOf] at h
    split_ifs at h
    · obtain ⟨branches, hbranches, h⟩ := bind_eq_ok_iff.1 h
      cases h
      exact accepted_of_branchesIn members hbranches
    · exact acceptedParts_of_plainOfMembers h
  | .null, _, h | .bool _, _, h | .int _, _, h | .float _, _, h | .str _, _, h
  | .arr _, _, h => by simp [stateOf] at h

theorem accepted_of_branchesIn : (members : List (String × Value)) → {branches : List Machine} →
    branchesIn members = .ok branches → ∀ b ∈ branches, b.Accepted
  | [], branches, h => by
    cases h
    simp
  | (k, v) :: rest, branches, h => by
    rw [branchesIn] at h
    split_ifs at h
    · exact accepted_of_branchesOf v h
    · exact accepted_of_branchesIn rest h

theorem accepted_of_branchesOf : (v : Value) → {branches : List Machine} →
    branchesOf v = .ok branches → ∀ b ∈ branches, b.Accepted
  | .arr items, branches, h => by
    rw [branchesOf] at h
    exact accepted_of_machineList items h
  | .str _, branches, h | .obj _, branches, h => by
    rw [branchesOf] at h
    split_ifs at h
    cases h
    simp
  | .null, _, h | .bool _, _, h | .int _, _, h | .float _, _, h => by simp [branchesOf] at h

theorem accepted_of_machineList : (items : List Value) → {branches : List Machine} →
    machineList items = .ok branches → ∀ b ∈ branches, b.Accepted
  | [], branches, h => by
    cases h
    simp
  | v :: rest, branches, h => by
    rw [machineList] at h
    obtain ⟨m, hm, h⟩ := bind_eq_ok_iff.1 h
    obtain ⟨more, hmore, h⟩ := bind_eq_ok_iff.1 h
    cases h
    rw [List.forall_mem_cons]
    exact ⟨accepted_of_ofJson v hm, accepted_of_machineList rest hmore⟩

end

end ReminderFlow.Machine
