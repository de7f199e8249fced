import ReminderFlow.Machine.Reminder
import ReminderFlow.Proofs.Engine.Schedule
import ReminderFlow.Proofs.Engine.Story
import ReminderFlow.Proofs.Run.Interleaving

namespace ReminderFlow.Engine

/-- However its chains take turns with each other and with other executions, and however many calls
are made at a time, an execution that ends by itself does so as the sequential machine. -/
theorem Run.ends_sequentially {registry : Registry} {archive : Option Archive} {retention : Nat}
    {respond : String → Value → Except Fault Datum}
    (hfunctions : ∀ name executor, registry.get? name = some executor →
      ∀ n input, (executor.call n input).result = respond name input)
    {actions : List Action} {e : Engine} {events : List Event}
    (hrun : Run (make registry archive retention) actions e events) {id : String} {x : Execution}
    (hx : e.execution? id = some x) (huncut : ∀ a ∈ actions, ¬a.Cuts id) {at_ : Instant}
    {outcome : Outcome} (hend : x.phase.end? = some (at_, outcome)) :
    Started actions id x ∧
      ∃ account, Sequential.run registry.contains respond x.machine x.input = some account ∧
        Outcome.ofResult? x.deadline account.result = some outcome ∧
        ∀ branch, Chain.on branch (chainEvents id events) = Chain.on branch account.log := by
  have hfresh : (make registry archive retention).execution? id = none := rfl
  obtain ⟨-, told⟩ := hrun.told hfresh
  refine ⟨told.started x hx, ?_⟩
  have hreplies : ∀ name input reply,
      registry.MayReply name input reply → reply = respond name input := by
    rintro name input reply ⟨executor, n, hget, rfl⟩
    exact hfunctions name executor hget n input
  cases told.story x hx with
  | scheduled phase => simp [phase, Phase.end?] at hend
  | running phase => simp [phase, Phase.end?] at hend
  | cut ending allowed =>
    obtain ⟨a, ha, hcuts⟩ := allowed
    exact absurd hcuts (huncut a ha)
  | settled ending told course =>
    obtain ⟨account, hrunSeq, hresult, hlog⟩ := Sequential.resume_of_course hreplies course rfl
    obtain ⟨-, rfl⟩ := Prod.mk.inj (Option.some.inj (ending.symm.trans hend))
    refine ⟨account, hrunSeq, by rw [hresult, told], fun branch => (hlog branch).symm⟩

def echoes : Registry :=
  let echo := Executor.ofFunction "echo" fun v => .ok (.ofValue v)
  ⟨[(Machine.emailExecutor, echo), (Machine.smsExecutor, echo)]⟩

def wishes : Datum := .dict [(.str "waitSeconds", .int 0), (.str "preference", .str "both")]

/-- A schedule that makes the second call and takes its answer before the first branch begins. -/
def secondFirst : Option (List Action × Engine × List Event) :=
  performNew ⟨0⟩ "r" .reminder wishes (.int 60)
    [.move (.begin "r"), .move (.chain "r" [] .enter), .move (.chain "r" [] .wake),
      .move (.chain "r" [] .enter), .move (.chain "r" [] .enter),
      .move (.chain "r" [1] .begin), .move (.chain "r" [1] .enter), .move (.chain "r" [1] .call),
      .answer "r" [1], .move (.chain "r" [0] .begin), .move (.chain "r" [0] .enter),
      .move (.chain "r" [0] .call), .answer "r" [0], .move (.chain "r" [] .join),
      .move (.chain "r" [] .enter), .move (.chain "r" [] .enter), .move (.settle "r"),
      .move (.release "r")] (make echoes none 0)

/-- The run comes to a good end, without being cut off. -/
def completed (run : List Action × Engine × List Event) : Bool :=
  (run.1.all fun a => ¬a.Cuts "r") &&
    (run.2.1.execution? "r").any fun x => x.outcome?.any fun o => o.status = .succeeded

theorem ends_sequentially_secondFirst :
    (∀ name executor, echoes.get? name = some executor →
      ∀ n input, (executor.call n input).result = .ok (.ofValue input)) ∧
    ∃ actions e events x at_ outcome, secondFirst = some (actions, e, events) ∧
      Run (make echoes none 0) actions e events ∧ e.execution? "r" = some x ∧
      (∀ a ∈ actions, ¬a.Cuts "r") ∧ x.phase.end? = some (at_, outcome) ∧
      outcome.status = .succeeded ∧ Started actions "r" x ∧ ∃ account,
        Sequential.run echoes.contains (fun _ input => .ok (.ofValue input)) x.machine x.input =
          some account ∧
        Outcome.ofResult? x.deadline account.result = some outcome ∧
        ∀ branch, Chain.on branch (chainEvents "r" events) = Chain.on branch account.log := by
  have hfunctions : ∀ name executor, echoes.get? name = some executor →
      ∀ n input, (executor.call n input).result = .ok (.ofValue input) := by
    intro name executor h n input
    simp only [Registry.get?, echoes, List.lookup_cons, List.lookup_nil] at h
    split at h
    · rw [← Option.some.inj h]
      rfl
    · split at h
      · rw [← Option.some.inj h]
        rfl
      · simp at h
  refine ⟨hfunctions, ?_⟩
  have hcompleted : secondFirst.any completed = true := by decide +kernel
  obtain ⟨⟨actions, e, events⟩, hsome, hdone⟩ := (Option.any_eq_true _ _).1 hcompleted
  obtain ⟨hall, hdone⟩ := (Bool.and_eq_true_iff).1 hdone
  obtain ⟨x, hx, hdone⟩ := (Option.any_eq_true _ _).1 hdone
  obtain ⟨outcome, houtcome, hgood⟩ := (Option.any_eq_true _ _).1 hdone
  obtain ⟨⟨at_, o⟩, hend, rfl⟩ := Option.map_eq_some_iff.1 houtcome
  have huncut : ∀ a ∈ actions, ¬a.Cuts "r" := by
    intro a ha
    simpa using List.all_eq_true.1 hall a ha
  have hrun := Run.of_performNew rfl hsome
  exact ⟨actions, e, events, x, at_, o, hsome, hrun, hx, huncut, hend, by simpa using hgood,
    hrun.ends_sequentially hfunctions hx huncut hend⟩

end ReminderFlow.Engine
