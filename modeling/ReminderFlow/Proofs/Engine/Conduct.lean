import ReminderFlow.Proofs.Engine.Goes
import ReminderFlow.Proofs.Engine.Logging
import ReminderFlow.Proofs.Engine.Safety
import ReminderFlow.Proofs.Run.Conduct

namespace ReminderFlow

open Chain (Conduct deeds deeds_append)

/-- Where the main chain of an execution stands, or where it stood when the execution got its
outcome; and which branches were left by cutting the execution off. -/
inductive Execution.Arrived (mayCut : Prop) (x : Execution) : Chain → List Chain.Event → Prop
  | scheduled (phase : x.phase = .scheduled) :
      x.Arrived mayCut (.ready x.machine x.machine.start x.input) []
  | running {c : Chain} (phase : x.phase = .running c) : x.Arrived mayCut c []
  | settled {r : Except Failure Document} {o : Outcome} (outcome : x.outcome? = some o)
      (told : Outcome.ofResult? x.deadline r = some o) : x.Arrived mayCut (.ended r) []
  | cut {c : Chain} (allowed : mayCut)
      (outcome : x.outcome? = some (.timedOut x.deadline) ∨ x.outcome? = some .cancelled) :
      x.Arrived mayCut c (c.abandon "")

theorem Execution.Arrived.left_of_mem {mayCut : Prop} {x : Execution} {c : Chain}
    {left : List Chain.Event} (h : x.Arrived mayCut c left) :
    ∀ event ∈ left, ∃ branch, event = .left branch := by
  cases h with
  | cut => exact Engine.left_of_abandon "" c
  | _ => exact fun event hevent => absurd hevent List.not_mem_nil

namespace Engine

theorem Story.arrived {r : Registry} {mayCut : Prop} {x : Execution} {all : List Chain.Event}
    (h : Story r mayCut x all) :
    ∃ seen last left, all = seen ++ left ∧ x.Arrived mayCut last left ∧ x.Runs r seen last := by
  cases h with
  | scheduled phase nothing =>
    exact ⟨[], _, [], nothing, .scheduled phase, .rest _⟩
  | @running c phase course =>
    exact ⟨all, c, [], (List.append_nil all).symm, .running phase, course⟩
  | settled ending told course =>
    have houtcome := Execution.outcome?_of_end ending
    exact ⟨all, _, [], (List.append_nil all).symm, .settled houtcome told, course⟩
  | @cut at_ outcome c before ending allowed how course left =>
    have houtcome := Execution.outcome?_of_end ending
    refine ⟨before, c, c.abandon "", left, .cut allowed ?_, course⟩
    rcases how with rfl | rfl
    · exact .inl houtcome
    · exact .inr houtcome

/-- At any point of any run, the main chain of an execution and the chains of all its branches
have entered the states that their machines declare, one successor after the other, and have made
the one call of each task that they have entered, with what its input path led to in the document
of that moment. Only the last task that a chain has entered may be without its call: because its
executor is unknown or its input is not there, or because the execution has not ended by itself
and the call still waits, or waited when the execution was cut off, for a worker. A chain that has
returned has done so from a terminal state that does not fail, and a chain that has ended does
nothing more. -/
theorem Run.conducts {registry : Registry} {archive : Option Archive} {retention : Nat}
    {actions : List Action} (hread : AllRead actions) {e : Engine} {events : List Event}
    (hrun : Run (make registry archive retention) actions e events) {id : String} {x : Execution}
    (hx : e.execution? id = some x) :
    ∃ seen last left, chainEvents id events = seen ++ left ∧
      x.Arrived (∃ a ∈ actions, a.Cuts id) last left ∧
      (∀ event ∈ left, ∃ branch, event = .left branch) ∧
      Conduct registry.contains registry.MayReply (last.result? = none) "" x.machine x.input seen
        last ∧
      ∀ o, x.outcome? = some o → ∀ further after more, Run e further after more →
        chainEvents id more = [] := by
  have hfresh : (make registry archive retention).execution? id = none := rfl
  obtain ⟨-, told⟩ := hrun.told hfresh
  obtain ⟨now, input, limit, passed, hmem, -⟩ := told.started x hx
  obtain ⟨v, hv⟩ := hread _ _ _ _ _ _ hmem
  have haccepted := Machine.accepted_of_ofJson v hv
  obtain ⟨seen, last, left, hall, harrived, hcourse⟩ := (told.story x hx).arrived
  refine ⟨seen, last, left, hall, harrived, harrived.left_of_mem, hcourse.conduct haccepted, ?_⟩
  intro o ho further after more hfurther
  exact hfurther.quiet hx ho

def echo : Registry := ⟨[("echo", Executor.ofFunction "echo" fun v => .ok (.ofValue v))]⟩

def errandText (name : String) : Value :=
  .obj [("StartAt", .str name), ("States", .obj [(name,
    .obj [("Type", .str "Task"), ("Resource", .str "echo")])])]

def errandsText : Value :=
  .obj [("StartAt", .str "Both"), ("States", .obj [("Both", .obj [("Type", .str "Parallel"),
    ("Branches", .arr [errandText "First", errandText "Second"])])])]

def errands : Machine := (Machine.ofJson errandsText).toOption.get (by decide +kernel)

/-- The deadline is delivered when the first branch has ended and the call of the second one waits
for a worker. -/
def halfDone : Option (List Action × Engine × List Event) :=
  performNew ⟨0⟩ "e" errands (.dict []) (.int 60)
    [.move (.begin "e"), .move (.chain "e" [] .enter), .move (.chain "e" [0] .begin),
      .move (.chain "e" [0] .enter), .move (.chain "e" [0] .call), .answer "e" [0],
      .move (.chain "e" [1] .begin), .move (.chain "e" [1] .enter), .move (.expire "e"),
      .move (.release "e")]
    (make echo none 0)

theorem conducts_halfDone :
    ∃ actions e events x seen last left, halfDone = some (actions, e, events) ∧ AllRead actions ∧
      Run (make echo none 0) actions e events ∧ e.execution? "e" = some x ∧
      chainEvents "e" events = seen ++ left ∧ x.Arrived (∃ a ∈ actions, a.Cuts "e") last left ∧
      Conduct echo.contains echo.MayReply (last.result? = none) "" x.machine x.input seen last ∧
      (deeds "Both[0]" (chainEvents "e" events)).length = 2 ∧
      (deeds "Both[1]" (chainEvents "e" events)).length = 1 := by
  have hcomputed : halfDone.any (fun run => (run.2.1.execution? "e").isSome &&
      ((deeds "Both[0]" (chainEvents "e" run.2.2)).length = 2 &&
        (deeds "Both[1]" (chainEvents "e" run.2.2)).length = 1)) = true := by
    decide +kernel
  obtain ⟨⟨actions, e, events⟩, hsome, hrest⟩ := (Option.any_eq_true _ _).1 hcomputed
  obtain ⟨hthere, hlengths⟩ := Bool.and_eq_true_iff.1 hrest
  obtain ⟨hfirst, hsecond⟩ := Bool.and_eq_true_iff.1 hlengths
  obtain ⟨x, hx⟩ := Option.isSome_iff_exists.1 hthere
  have hread : AllRead actions := allRead_of_performNew ⟨errandsText, eq_ok_get _⟩ hsome
  have hrun : Run (make echo none 0) actions e events := .of_performNew rfl hsome
  obtain ⟨seen, last, left, hseen, harrived, -, hconduct, -⟩ := hrun.conducts hread hx
  exact ⟨actions, e, events, x, seen, last, left, hsome, hread, hrun, hx, hseen, harrived, hconduct,
    of_decide_eq_true hfirst, of_decide_eq_true hsecond⟩

theorem deeds_of_left {branch : String} {left : List Chain.Event}
    (h : ∀ event ∈ left, ∃ name, event = .left name) : deeds branch left = [] := by
  rw [deeds, List.filter_eq_nil_iff]
  intro event hevent
  obtain ⟨name, rfl⟩ := h event hevent
  exact Bool.false_ne_true

def errandOnly : Machine := (Machine.ofJson (errandText "Only")).toOption.get (by decide +kernel)

/-- The deadline is delivered while the only call of the execution waits for a worker. -/
def tooLate : Option (List Action × Engine × List Event) :=
  performNew ⟨0⟩ "e" errandOnly (.dict []) (.int 60)
    [.move (.begin "e"), .move (.chain "e" [] .enter), .move (.expire "e"), .move (.release "e")]
    (make echo none 0)

/-- The first state is a task that can make its call. -/
def mayCall (registry : Registry) (x : Execution) : Bool :=
  match x.machine.state? x.machine.start with
  | some (.task (.str id) inputPath _ _) =>
    registry.contains id && (x.input.get (Datum.ofValue inputPath)).isOk
  | _ => false

/-- Nothing is to be seen but the entry into one state. -/
def entersOnly : List Chain.Event → Bool
  | [.entered ..] => true
  | _ => false

theorem one_visit {visits : List Chain.Visit}
    (h : entersOnly (visits.flatMap (Chain.Visit.acts "")) = true) :
    ∃ v, visits = [v] ∧ v.call = none := by
  cases visits with
  | nil => cases h
  | cons v rest =>
    rw [List.flatMap_cons, Chain.Visit.acts, Chain.Visit.calling] at h
    cases hcall : v.call with
    | some call =>
      rw [hcall] at h
      cases h
    | none =>
      rw [hcall] at h
      cases rest with
      | nil => exact ⟨v, rfl, hcall⟩
      | cons w more => cases h

/-- A call that waits for a worker when the execution is cut off is never made. -/
theorem cut_before_called :
    ¬∀ (registry : Registry) (archive : Option Archive) (retention : Nat) (actions : List Action)
      (e : Engine) (events : List Event) (id : String) (x : Execution), AllRead actions →
      Run (make registry archive retention) actions e events → e.execution? id = some x →
      x.phase.isDone = true →
      ∃ seen last left, chainEvents id events = seen ++ left ∧
        (∀ event ∈ left, ∃ branch, event = .left branch) ∧
        Conduct registry.contains registry.MayReply False "" x.machine x.input seen last := by
  intro hall
  have hcomputed : tooLate.any (fun run => entersOnly (deeds "" (chainEvents "e" run.2.2)) &&
      (run.2.1.execution? "e").any fun x => x.phase.isDone && mayCall echo x) = true := by
    decide +kernel
  obtain ⟨⟨actions, e, events⟩, hsome, hrest⟩ := (Option.any_eq_true _ _).1 hcomputed
  obtain ⟨henters, hrest⟩ := Bool.and_eq_true_iff.1 hrest
  obtain ⟨x, hx, hrest⟩ := (Option.any_eq_true _ _).1 hrest
  obtain ⟨hdone, hcall⟩ := Bool.and_eq_true_iff.1 hrest
  have hread : AllRead actions := allRead_of_performNew ⟨errandText "Only", eq_ok_get _⟩ hsome
  obtain ⟨seen, last, left, hseen, hleft, hconduct⟩ :=
    hall echo none 0 actions e events "e" x hread (.of_performNew rfl hsome) hx hdone
  cases hconduct with
  | @intro _ _ _ _ _ visits parts told did start declared onward calls ends closed forks branches =>
    rw [hseen, deeds_append, deeds_of_left hleft, List.append_nil, did] at henters
    obtain ⟨v, rfl, hnone⟩ := one_visit henters
    obtain ⟨hname, hdocument⟩ := start v rfl
    have hdeclared := declared v List.mem_cons_self
    rw [hname] at hdeclared
    simp only [mayCall, hdeclared] at hcall
    split at hcall
    case h_2 => cases hcall
    case h_1 resource inputPath outputPath next hstate =>
      obtain ⟨hknown, hinput⟩ := Bool.and_eq_true_iff.1 hcall
      have hstate := Option.some.inj hstate
      obtain hcalls | ⟨⟨-, hbarred⟩, -⟩ | ⟨hspare, -⟩ := calls v rfl
      · rw [Chain.Visit.Calls, hstate] at hcalls
        obtain ⟨_, _, -, -, -, hcalled⟩ := hcalls
        rw [hnone] at hcalled
        cases hcalled
      · obtain ⟨_, _, _, _, hstate', hunknown | ⟨path, habsent⟩⟩ := hbarred
        · cases hstate.symm.trans hstate'
          rw [hunknown] at hknown
          cases hknown
        · cases hstate.symm.trans hstate'
          rw [hdocument] at habsent
          rw [habsent] at hinput
          cases hinput
      · exact hspare

end Engine

end ReminderFlow
