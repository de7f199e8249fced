import ReminderFlow.Proofs.Engine.Conduct
import ReminderFlow.Proofs.Run.Lookup

namespace ReminderFlow

namespace Engine

/-- The code of an executor that is not registered; Fail states may give it too. -/
def unknownCode : Value := .str "States.UnknownExecutor"

/-- A Fail state has given it, or a fault with the code was raised where an executor's fault was
told or its output read. -/
def GivesUnknownCode (f : Failure) : Prop :=
  f.IsRaised ∨ ∃ fault cause, f = .crash (.outside fault) ∧
    fault.family = .execution "States.UnknownExecutor" cause

theorem family_of_unknownCode {deadline : Instant} {fault : Fault} {o : Outcome}
    (told : Outcome.ofFault? deadline fault = some o) (hcode : o.error = unknownCode) :
    ∃ cause, fault.family = .execution "States.UnknownExecutor" cause := by
  unfold Outcome.ofFault? at told
  split at told
  · cases told
    simp [Outcome.timedOut, Outcome.timeoutCode, unknownCode] at hcode
  · rename_i error cause hfamily
    cases told
    obtain rfl : error = "States.UnknownExecutor" := Value.str.inj hcode
    exact ⟨cause, hfamily⟩
  · obtain ⟨cause, -, rfl⟩ := Option.map_eq_some_iff.1 told
    simp [Outcome.failed, Outcome.runtimeCode, unknownCode] at hcode

theorem of_unknownCode {deadline : Instant} {f : Failure} {o : Outcome} (allowed : f.Allowed)
    (told : Outcome.ofResult? deadline (.error f) = some o) (hcode : o.error = unknownCode) :
    GivesUnknownCode f ∨ ∃ shown, f = .unknownExecutor shown := by
  cases f with
  | raised error cause => exact .inl (.inl trivial)
  | unknownExecutor shown => exact .inr ⟨shown, rfl⟩
  | crash k =>
    obtain ⟨cause, hfamily⟩ := family_of_unknownCode told hcode
    rcases allowed with hforeseen | hnumber | ⟨fault, houtside⟩
    · exact hforeseen.elim
    · cases hnumber
      cases hfamily
    · cases houtside
      exact .inl (.inr ⟨fault, cause, rfl, hfamily⟩)
  | _ =>
    cases told
    simp [Outcome.failed, unknownCode] at hcode

/-- An outcome with the code is that of the main chain. -/
theorem Story.result_of_unknownCode {r : Registry} {p : Prop} {x : Execution}
    {seen : List Chain.Event} (h : Story r p x seen) {o : Outcome} (ho : x.outcome? = some o)
    (hcode : o.error = unknownCode) :
    ∃ f, Outcome.ofResult? x.deadline (.error f) = some o ∧ x.Runs r seen (.ended (.error f)) := by
  cases h with
  | scheduled phase => simp [Execution.outcome?, phase, Phase.end?] at ho
  | running phase => simp [Execution.outcome?, phase, Phase.end?] at ho
  | @settled at_ outcome result ending told course =>
    obtain rfl := Option.some.inj ((Execution.outcome?_of_end ending).symm.trans ho)
    cases result with
    | ok doc =>
      cases told
      cases hcode
    | error f => exact ⟨f, told, course⟩
  | cut ending allowed how =>
    obtain rfl := Option.some.inj ((Execution.outcome?_of_end ending).symm.trans ho)
    rcases how with rfl | rfl
    · simp [Outcome.timedOut, Outcome.timeoutCode, unknownCode] at hcode
    · simp [Outcome.cancelled, Outcome.failed, unknownCode] at hcode

/-- At any point of any run, whatever the registry is: what any chain of an execution looks up is
among the ids of its machine, so that registries which agree on these ids allow the same moves; and
so are the executors that have been called. If none of them is missing then no chain has failed for
want of an executor, and an outcome with that code is what a Fail state has given, or what an
executor has raised where its fault was told or its output read. -/
theorem Run.asks_only_declared {registry : Registry} {archive : Option Archive} {retention : Nat}
    {actions : List Action} (hread : AllRead actions) {e : Engine} {events : List Event}
    (hrun : Run (make registry archive retention) actions e events) {id : String} {x : Execution}
    (hx : e.execution? id = some x) :
    (∀ c move address, x.phase = .running c →
      (∀ d v, c.at? address = some d → d.lookup? move = some v →
        ∃ executor ∈ x.machine.executorIds, v = .str executor) ∧
      ∀ knows, (∀ executor ∈ x.machine.executorIds, knows executor = registry.contains executor) →
        c.stepAt knows move address "" = c.stepAt registry.contains move address "") ∧
    (∀ branch executor input, .called branch executor input ∈ chainEvents id events →
      executor ∈ x.machine.executorIds) ∧
    (registry.missing x.machine.executorIds = [] →
      (∀ c address v, x.phase = .running c →
        c.at? address ≠ some (.ended (.error (.unknownExecutor v)))) ∧
      ∀ o, x.outcome? = some o → o.error = unknownCode →
        ∃ f, GivesUnknownCode f ∧ Outcome.ofResult? x.deadline (.error f) = some o ∧
          x.Runs registry (chainEvents id events) (.ended (.error f))) := by
  have hfresh : (make registry archive retention).execution? id = none := rfl
  obtain ⟨-, told⟩ := hrun.told hfresh
  obtain ⟨now, input, limit, passed, hmem, -⟩ := told.started x hx
  obtain ⟨v, hv⟩ := hread _ _ _ _ _ _ hmem
  have hstory := told.story x hx
  have hfirst : Chain.Asks x.machine.executorIds registry.contains
      (.ready x.machine x.machine.start x.input) :=
    .ready ⟨Machine.accepted_of_ofJson v hv, fun _ h => h⟩
  have hlacks {d : Chain} {v : String} (hd : d = .ended (.error (.unknownExecutor v)))
      (hasks : d.Asks x.machine.executorIds registry.contains) :
      registry.missing x.machine.executorIds ≠ [] := by
    subst hd
    intro hmissing
    cases hasks with
    | ended failure =>
      obtain ⟨executor, hexecutor, -, hunknown⟩ := failure _ rfl v rfl
      rw [(registry.missing_eq_nil_iff _).1 hmissing executor hexecutor] at hunknown
      cases hunknown
  refine ⟨fun c move address hphase => ?_, fun branch executor input hcalled => ?_,
    fun hmissing => ⟨fun c address v hphase hat => ?_, fun o ho hcode => ?_⟩⟩
  · obtain ⟨hasks, -⟩ := hfirst.course (hstory.runs hphase)
    have hlookup (d : Chain) (v : Value) (hd : c.at? address = some d)
        (hv : d.lookup? move = some v) : ∃ executor ∈ x.machine.executorIds, v = .str executor :=
      (hasks.at? hd).mem_of_lookup? hv
    refine ⟨hlookup, fun knows hagree => Chain.stepAt_congr fun d executor hd hv => ?_⟩
    obtain ⟨executor, hexecutor, heq⟩ := hlookup d _ hd hv
    cases heq
    exact hagree executor hexecutor
  · obtain ⟨seen, last, left, hall, harrived, hcourse⟩ := hstory.arrived
    rw [hall, List.mem_append] at hcalled
    rcases hcalled with hcalled | hcalled
    · exact (hfirst.course hcourse).2 branch executor input hcalled
    · obtain ⟨name, heq⟩ := harrived.left_of_mem _ hcalled
      cases heq
  · exact hlacks rfl ((hfirst.course (hstory.runs hphase)).1.at? hat) hmissing
  · obtain ⟨f, hreport, hcourse⟩ := hstory.result_of_unknownCode ho hcode
    have hallowed : f.Allowed := by
      cases Chain.sound_course (sound_start hread (told.started x hx)) hcourse with
      | ended allowed => exact allowed f rfl
    rcases of_unknownCode hallowed hreport hcode with hgiven | ⟨v, rfl⟩
    · exact ⟨f, hgiven, hreport, hcourse⟩
    · exact absurd hmissing (hlacks rfl (hfirst.course hcourse).1)

def relayText : Value :=
  .obj [("StartAt", .str "Relay"), ("States", .obj [("Relay", .obj [("Type", .str "Parallel"),
    ("Branches", .arr [errandsText, errandText "Third"])])])]

def relay : Machine := (Machine.ofJson relayText).toOption.get (by decide +kernel)

/-- One task of the inner fork has been called and the other is about to be entered. -/
def relaying : Option (List Action × Engine × List Event) :=
  performNew ⟨0⟩ "r" relay (.dict []) (.int 60)
    [.move (.begin "r"), .move (.chain "r" [] .enter), .move (.chain "r" [0] .begin),
      .move (.chain "r" [0] .enter), .move (.chain "r" [0, 0] .begin),
      .move (.chain "r" [0, 0] .enter), .move (.chain "r" [0, 0] .call),
      .move (.chain "r" [0, 1] .begin)]
    (make echo none 0)

def looksUp (address : List Nat) (x : Execution) : Bool :=
  match x.phase with
  | .running c => (c.at? address).any fun d => (d.lookup? .enter).isSome
  | _ => false

def isCall : Chain.Event → Bool
  | .called .. => true
  | _ => false

theorem asks_only_declared_relaying :
    ∃ actions e events x c d executor branch other input, relaying = some (actions, e, events) ∧
      AllRead actions ∧ Run (make echo none 0) actions e events ∧ e.execution? "r" = some x ∧
      x.phase = .running c ∧ c.at? [0, 1] = some d ∧ d.lookup? .enter = some (.str executor) ∧
      executor ∈ x.machine.executorIds ∧ .called branch other input ∈ chainEvents "r" events ∧
      other ∈ x.machine.executorIds ∧ echo.missing x.machine.executorIds = [] ∧
      ∀ address v, c.at? address ≠ some (.ended (.error (.unknownExecutor v))) := by
  have hcomputed : relaying.any (fun run => (chainEvents "r" run.2.2).any isCall &&
      (run.2.1.execution? "r").any fun x => looksUp [0, 1] x &&
        x.machine.executorIds.all echo.contains) = true := by decide +kernel
  obtain ⟨⟨actions, e, events⟩, hsome, hrest⟩ := (Option.any_eq_true _ _).1 hcomputed
  obtain ⟨hcalls, hrest⟩ := Bool.and_eq_true_iff.1 hrest
  obtain ⟨x, hx, hrest⟩ := (Option.any_eq_true _ _).1 hrest
  obtain ⟨hlooks, hall⟩ := Bool.and_eq_true_iff.1 hrest
  have hread : AllRead actions := allRead_of_performNew ⟨relayText, eq_ok_get _⟩ hsome
  have hrun : Run (make echo none 0) actions e events := .of_performNew rfl hsome
  obtain ⟨hlookup, hcalled, hlacking⟩ := hrun.asks_only_declared hread hx
  have hmissing : echo.missing x.machine.executorIds = [] :=
    (echo.missing_eq_nil_iff _).2 fun executor h => List.all_eq_true.1 hall executor h
  obtain ⟨event, hmem, hcall⟩ := List.any_eq_true.1 hcalls
  unfold looksUp at hlooks
  split at hlooks
  case h_2 => cases hlooks
  case h_1 c hphase =>
    obtain ⟨d, hd, hsome'⟩ := (Option.any_eq_true _ _).1 hlooks
    obtain ⟨v, hv⟩ := Option.isSome_iff_exists.1 hsome'
    obtain ⟨executor, hexecutor, rfl⟩ := (hlookup c .enter [0, 1] hphase).1 d v hd hv
    cases event with
    | called branch other input =>
      exact ⟨actions, e, events, x, c, d, executor, branch, other, input, hsome, hread, hrun, hx,
        hphase, hd, hv, hexecutor, hmem, hcalled branch other input hmem, hmissing,
        fun address v => (hlacking hmissing).1 c address v hphase⟩
    | _ => cases hcall

end Engine

end ReminderFlow
