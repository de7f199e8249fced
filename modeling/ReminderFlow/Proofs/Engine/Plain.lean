import ReminderFlow.Proofs.Engine.Lifecycle
import ReminderFlow.Record

namespace ReminderFlow

def Value.IsTextOrNull (v : Value) : Prop := v = .null ∨ ∃ s, v = .str s

def Failure.IsPlain (f : Failure) : Prop :=
  ∀ error cause, f.report? = some (error, cause) → error.IsTextOrNull ∧ cause.IsTextOrNull

def Outcome.IsPlain (o : Outcome) : Prop := o.error.IsTextOrNull ∧ o.cause.IsTextOrNull

/-- Every Fail state of the machine gives texts or null, and so do those of its branches. -/
inductive Machine.FailsPlainly : Machine → Prop
  | intro {m : Machine}
      (fails : ∀ name cause error, m.state? name = some (.fail cause error) →
        (Failure.raised error cause).IsPlain)
      (inner : ∀ name branches strays next, m.state? name = some (.parallel branches strays next) →
        ∀ b ∈ branches, FailsPlainly b) : FailsPlainly m

theorem Value.isTextOrNull_iff {v : Value} :
    v.IsTextOrNull ↔ ∃ s, Record.textOrNull v = some s := by
  constructor
  · rintro (rfl | ⟨s, rfl⟩)
    · exact ⟨none, rfl⟩
    · exact ⟨some s, rfl⟩
  · rintro ⟨s, hs⟩
    cases v with
    | null => exact .inl rfl
    | str t => exact .inr ⟨t, rfl⟩
    | _ => cases hs

/-- An error that is neither a text nor null is not plain. -/
theorem Outcome.not_isPlain_of_isNone {o : Outcome}
    (h : (Record.textOrNull o.error).isNone = true) : ¬o.IsPlain := by
  rintro ⟨herror, -⟩
  obtain ⟨s, hs⟩ := Value.isTextOrNull_iff.1 herror
  rw [hs] at h
  cases h

theorem Failure.isPlain_of_not_isRaised {f : Failure} (h : ¬f.IsRaised) : f.IsPlain := by
  intro error cause hreport
  cases f with
  | raised error cause => exact (h trivial).elim
  | crash c => cases hreport
  | _ =>
    cases hreport
    exact ⟨.inr ⟨_, rfl⟩, .inr ⟨_, rfl⟩⟩

theorem Outcome.isPlain_of_ofFault? {deadline : Instant} {fault : Fault} {o : Outcome}
    (h : ofFault? deadline fault = some o) : o.IsPlain := by
  unfold ofFault? at h
  split at h
  · cases h
    exact ⟨.inr ⟨_, rfl⟩, .inr ⟨_, rfl⟩⟩
  · cases h
    exact ⟨.inr ⟨_, rfl⟩, .inr ⟨_, rfl⟩⟩
  · obtain ⟨cause, -, rfl⟩ := Option.map_eq_some_iff.1 h
    exact ⟨.inr ⟨_, rfl⟩, .inr ⟨_, rfl⟩⟩

theorem Outcome.isPlain_of_ofResult? {deadline : Instant} {r : Except Failure Document}
    {o : Outcome} (h : ofResult? deadline r = some o) (hr : ∀ f, r = .error f → f.IsPlain) :
    o.IsPlain := by
  unfold ofResult? at h
  split at h
  · cases h
    exact ⟨.inl rfl, .inl rfl⟩
  · exact isPlain_of_ofFault? h
  · obtain ⟨⟨error, cause⟩, hreport, rfl⟩ := Option.map_eq_some_iff.1 h
    exact hr _ rfl error cause hreport

namespace Engine

def plainContents : Chain.Contents := ⟨fun _ => True, fun _ => True, Failure.IsPlain⟩

theorem kept_plainContents : plainContents.Kept where
  branch := fun _ _ _ => trivial
  set := fun _ _ => trivial
  list := fun _ _ => trivial
  foreseen := fun _ => Failure.isPlain_of_not_isRaised

theorem Holds.isPlain {x : Execution} (h : Holds plainContents x) {at_ : Instant} {outcome : Outcome}
    (hend : x.phase.end? = some (at_, outcome)) : outcome.IsPlain := by
  rcases h.ending at_ outcome hend with ⟨r, told, hr⟩ | ⟨deadline, rfl⟩ | rfl
  · cases hr with
    | ended document failure => exact Outcome.isPlain_of_ofResult? told failure
  · exact ⟨.inr ⟨_, rfl⟩, .inr ⟨_, rfl⟩⟩
  · exact ⟨.inr ⟨_, rfl⟩, .inr ⟨_, rfl⟩⟩

/-- If every Fail state that is entered gives texts or null, then every outcome is plain. -/
theorem Run.isPlain {first e : Engine} {actions : List Action} {events : List Event} {id : String}
    (hrun : Run first actions e events) (hfirst : first.execution? id = none)
    (hfails : FailsOnlyWith Failure.IsPlain first actions id) {x : Execution}
    (hx : e.execution? id = some x) {at_ : Instant} {outcome : Outcome}
    (hend : x.phase.end? = some (at_, outcome)) : outcome.IsPlain := by
  have hholds := hrun.holds kept_plainContents hfirst (fun _ _ _ _ _ _ => trivial)
    (fun _ _ _ => trivial) hfails x hx
  exact hholds.isPlain hend

def plainMachines : Chain.Contents := ⟨Machine.FailsPlainly, fun _ => True, fun _ => True⟩

theorem kept_plainMachines : plainMachines.Kept where
  branch := by
    intro m b name branches strays next hm hs hb
    cases hm with
    | intro fails inner => exact inner name branches strays next hs b hb
  set := fun _ _ => trivial
  list := fun _ _ => trivial
  foreseen := fun _ _ => trivial

/-- Machines whose Fail states give texts and null fail with nothing else. -/
theorem failsOnlyWith_of_failsPlainly {first : Engine} {actions : List Action} {id : String}
    (hfirst : first.execution? id = none)
    (hmachine : StartsOnly Machine.FailsPlainly actions id) :
    FailsOnlyWith Failure.IsPlain first actions id := by
  intro earlier e seen now address x c m name doc cause error hinitial hearlier hx hphase hat hstate
  have hstarts : StartsOnly plainMachines.machine earlier id := by
    intro now m input limit passed hmem
    exact hmachine now m input limit passed (hinitial.subset (List.mem_append_left _ hmem))
  have hholds := hearlier.holds kept_plainMachines hfirst hstarts (fun _ _ _ => trivial)
    (fun _ _ _ _ _ _ _ _ _ _ _ _ _ _ _ _ _ _ => trivial) x hx
  cases (hholds.chain c hphase).at? hat with
  | ready machine document =>
    cases machine with
    | intro fails inner => exact fails name cause error hstate

end Engine

end ReminderFlow
