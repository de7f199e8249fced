import ReminderFlow.Proofs.Engine.Found
import ReminderFlow.Service.Basic

namespace ReminderFlow

namespace Trigger

/-- The report tells how an execution ended that has no document. -/
structure Reports (id : String) (o : Outcome) (body : Value) : Prop where
  executionId : body.get? "executionId" = some (.str id)
  status : body.get? "status" = some (.str o.status.name)
  error : body.get? "error" = some o.error
  cause : body.get? "cause" = some o.cause

/-- The answer tells the outcome: by the document if there is one, else by a report. -/
inductive Tells (id : String) (o : Outcome) : Response → Prop where
  | succeeded {doc : Document} (status : o.status = .succeeded) (document : o.document = some doc) :
      Tells id o ⟨200, doc.value⟩
  | timedOut {body : Value} (status : o.status = .timedOut) (report : Reports id o body) :
      Tells id o ⟨504, body⟩
  | failed {body : Value} (status : o.status = .failed) (report : Reports id o body) :
      Tells id o ⟨500, body⟩

theorem reports_report (id : String) (o : Outcome) :
    Reports id o (report o.status id o.error o.cause) := ⟨rfl, rfl, rfl, rfl⟩

theorem exists_tells (id : String) {o : Outcome} (hterminal : o.status.isTerminal = true)
    (hdocument : o.status = .succeeded → o.document.isSome = true) :
    ∃ response, ofOutcome? id o = some response ∧ Tells id o response := by
  have hreport := reports_report id o
  cases hstatus : o.status with
  | running =>
    rw [hstatus] at hterminal
    cases hterminal
  | succeeded =>
    obtain ⟨doc, hdoc⟩ := Option.isSome_iff_exists.1 (hdocument hstatus)
    exact ⟨_, by rw [ofOutcome?, hstatus, hdoc]; rfl, .succeeded hstatus hdoc⟩
  | failed =>
    rw [hstatus] at hreport
    exact ⟨_, by rw [ofOutcome?, hstatus], .failed hstatus hreport⟩
  | timedOut =>
    rw [hstatus] at hreport
    exact ⟨_, by rw [ofOutcome?, hstatus], .timedOut hstatus hreport⟩

end Trigger

namespace Service

/-- What the service shows tells the end of the execution. -/
structure Shows (id : String) (at_ : Instant) (o : Outcome) (shown : Value) : Prop where
  executionId : shown.get? "executionId" = some (.str id)
  status : shown.get? "status" = some (.str o.status.name)
  completedAt : shown.get? "completedAt" = some (.str at_.text)
  currentStates : shown.get? "currentStates" = some (.obj [])
  output : shown.get? "output" = some ((o.document.map Document.value).getD .null)
  error : shown.get? "error" = some o.error
  cause : shown.get? "cause" = some o.cause

theorem exists_shows {id : String} {x : Execution} {at_ : Instant} {o : Outcome} {r : Record}
    (h : x.LastRecord id at_ o r) (hproper : r.IsProper) :
    ∃ shown, executionJson? r = some shown ∧ Shows id at_ o shown := by
  have hnamed : (Status.ofName? r.status).isNone = false := by
    rw [h.status, Status.ofName?_name]
    rfl
  have houtput : r.output.finiteOrNull = (o.document.map Document.value).getD .null := by
    rw [hproper.output.finiteOrNull, h.output]
  unfold executionJson?
  rw [hnamed, if_neg Bool.false_ne_true, houtput]
  refine ⟨_, rfl, ?_⟩
  constructor
  · simp [Value.get?, h.executionId]
  · simp [Value.get?, List.lookup_cons, h.status]
  · simp [Value.get?, List.lookup_cons, h.completedAt, Record.optional]
  · simp [Value.get?, List.lookup_cons, h.currentStates, Record.statesJson]
  · simp [Value.get?, List.lookup_cons]
  · simp [Value.get?, List.lookup_cons, h.error]
  · simp [Value.get?, List.lookup_cons, h.cause]

end Service

namespace Engine

theorem Holds.isSome_document {K : Chain.Contents} {x : Execution} (h : Holds K x) {at_ : Instant}
    {outcome : Outcome} (hend : x.phase.end? = some (at_, outcome))
    (hstatus : outcome.status = .succeeded) : outcome.document.isSome = true := by
  rcases h.ending at_ outcome hend with ⟨r, told, -⟩ | ⟨deadline, rfl⟩ | rfl
  · obtain ⟨doc, -, hdoc⟩ | ⟨-, hnot⟩ := Outcome.document_of_ofResult? told
    · exact hdoc ▸ rfl
    · exact absurd hstatus hnot
  · cases hstatus
  · cases hstatus

/-- What the store has of an execution that is done, if all writes succeeded: its last record if the
outcome is plain, and else at most a record of before. -/
theorem Run.record_of_done {first e : Engine} {actions : List Action} {events : List Event}
    {id : String} {x : Execution} {at_ : Instant} {outcome : Outcome}
    (hrun : Run first actions e events) (hnew : first.execution? id = none)
    (htakes : first.takes = true) (hempty : first.queued id = []) (hclosed : first.closed = false)
    (hopen : .close ∉ actions) (hwrites : AllWritten events)
    (hx : e.execution? id = some x) (hdone : x.phase = .done at_ outcome) :
    (outcome.IsPlain → ∃ r, e.HasRecord id r ∧ x.LastRecord id at_ outcome r ∧ r.IsProper) ∧
      (¬outcome.IsPlain → (∃ r states, e.HasRecord id r ∧ x.RunningRecord id states r) ∨
        (written id events = [] ∧ e.file? id = first.file? id)) := by
  have hlogged := (hrun.kept hnew htakes (hrun.goes_of_open hclosed hopen)).logged x hx
  have horder := hrun.written_append_queued hclosed hopen hempty
  have hproper {r : Record} (hr : r ∈ recorded id events) : r.IsProper :=
    hlogged.isProper (hrun.holdsProper hnew hx) hr
  have hend : x.phase.end? = some (at_, outcome) := by
    rw [hdone]
    rfl
  refine ⟨fun hplain => ?_, fun hnot => ?_⟩
  · have hqueued := hrun.delivered hnew htakes hempty hclosed hopen x at_ outcome hx hdone hplain
    rw [hqueued, List.append_nil, ← hwrites.stored] at horder
    obtain ⟨r, hlast, hr⟩ := hlogged.exists_last hend hplain
    have hmem := List.mem_of_getLast? hlast
    exact ⟨r, hrun.hasRecord (horder ▸ hlast) (hproper hmem), hr, hproper hmem⟩
  · cases hlast : (stored id events).getLast? with
    | none =>
      refine .inr ⟨?_, by rw [hrun.files, latest, hlast]⟩
      rw [← hwrites.stored]
      exact List.getLast?_eq_none_iff.1 hlast
    | some r =>
      have hmem : r ∈ recorded id events := by
        rw [← horder, ← hwrites.stored]
        exact List.mem_append_left _ (List.mem_of_getLast? hlast)
      obtain ⟨states, hstates⟩ := (hlogged.running_of_not_isPlain hend hnot).2 r hmem
      exact .inl ⟨r, states, hrun.hasRecord hlast (hproper hmem), hstates⟩

/-- Once an execution is done, on an engine that is not closed meanwhile and whose writes all
succeed, the answer to its request tells the outcome, and if that is plain, then so does the record
that is found in the store, and what the service shows of it. If the outcome is not plain, then the
store tells that the execution runs, or nothing of it if no record has been written. -/
theorem Run.answers_agree {registry : Registry} {a : Archive} {retention : Nat}
    {actions : List Action} {e : Engine} {events : List Event} {id : String} {x : Execution}
    {at_ : Instant} {outcome : Outcome}
    (hrun : Run (make registry (some a) retention) actions e events)
    (hopen : .close ∉ actions) (hwrites : AllWritten events)
    (hx : e.execution? id = some x) (hdone : x.phase = .done at_ outcome) :
    outcome.status.isTerminal = true ∧
      (∃ response, Trigger.ofOutcome? id outcome = some response ∧
        Trigger.Tells id outcome response) ∧
      (outcome.IsPlain → ∃ r shown, e.HasRecord id r ∧ x.LastRecord id at_ outcome r ∧
        Service.executionJson? r = some shown ∧ Service.Shows id at_ outcome shown) ∧
      (¬outcome.IsPlain → (∃ r states, e.HasRecord id r ∧ x.RunningRecord id states r) ∨
        (written id events = [] ∧ e.file? id = a.store.file? id)) := by
  have hnew : (make registry (some a) retention).execution? id = none := rfl
  have hend : x.phase.end? = some (at_, outcome) := by
    rw [hdone]
    rfl
  have hterminal := hrun.isTerminal hnew hx hend
  have hdocument := (hrun.holdsProper hnew hx).isSome_document hend
  obtain ⟨hplain, hnot⟩ := hrun.record_of_done hnew rfl rfl rfl hopen hwrites hx hdone
  refine ⟨hterminal, Trigger.exists_tells id hterminal hdocument, fun h => ?_, hnot⟩
  obtain ⟨r, hhas, hlast, hproper⟩ := hplain h
  obtain ⟨shown, hshown, hshows⟩ := Service.exists_shows hlast hproper
  exact ⟨r, shown, hhas, hlast, hshown, hshows⟩

/-- An execution that comes to rest at once, with all its records written. -/
def resting : Option (List Action × Engine × List Event) :=
  performNew ⟨0⟩ "r" (.mk "Rest" [("Rest", .succeed)] "") (.dict [(.str "to", .str "Ada")]) (.int 60)
    [.move (.begin "r"), .move .write, .move (.chain "r" [] .enter), .move .write, .move (.settle "r"),
      .move .write, .move (.release "r")]
    (make ⟨[]⟩ (some ⟨.empty .usual, fun _ => false⟩) 0)

theorem answers_agree_resting :
    ∃ actions e events x at_ outcome, resting = some (actions, e, events) ∧
      e.execution? "r" = some x ∧ x.phase = .done at_ outcome ∧ outcome.IsPlain ∧
      (∃ response, Trigger.ofOutcome? "r" outcome = some response ∧
        Trigger.Tells "r" outcome response) ∧
      ∃ r shown, e.HasRecord "r" r ∧ x.LastRecord "r" at_ outcome r ∧
        Service.executionJson? r = some shown ∧ Service.Shows "r" at_ outcome shown := by
  have hcomputed : resting.any (fun run =>
      (run.2.1.execution? "r").any (fun x => x.phase.isDone &&
        x.outcome?.any (fun o => o.error.isNull && o.cause.isNull)) &&
        run.2.2.all (fun event => !event.isFault)) = true := by decide +kernel
  obtain ⟨⟨actions, e, events⟩, hsome, hrest⟩ := (Option.any_eq_true _ _).1 hcomputed
  obtain ⟨hany, hall⟩ := Bool.and_eq_true_iff.1 hrest
  obtain ⟨x, hx, hends⟩ := (Option.any_eq_true _ _).1 hany
  obtain ⟨hisDone, houtcome⟩ := Bool.and_eq_true_iff.1 hends
  obtain ⟨at_, outcome, hdone⟩ := phase_of_isDone hisDone
  have hplain : outcome.IsPlain := by
    rw [Execution.outcome?, hdone] at houtcome
    obtain ⟨herror, hcause⟩ := Bool.and_eq_true_iff.1 houtcome
    exact ⟨.inl (Value.isNull_iff.1 herror), .inl (Value.isNull_iff.1 hcause)⟩
  have hrun := Run.of_performNew rfl hsome
  obtain ⟨-, hanswer, hagree, -⟩ := hrun.answers_agree (not_closed_of_performNew hsome)
    (allWritten_of_all hall) hx hdone
  exact ⟨actions, e, events, x, at_, outcome, hsome, hx, hdone, hplain, hanswer, hagree hplain⟩

/-- An execution that a Fail state ends with a number for its error. -/
def broken : Option (List Action × Engine × List Event) :=
  performNew ⟨0⟩ "b" (.mk "Stop" [("Stop", .fail .null (.int 5))] "") (.dict []) (.int 60)
    [.move (.begin "b"), .move .write, .move (.chain "b" [] .enter), .move .write, .move (.settle "b"),
      .move (.release "b")]
    (make ⟨[]⟩ (some ⟨.empty .usual, fun _ => false⟩) 0)

theorem broken_keeps_running :
    ¬∀ (registry : Registry) (a : Archive) (retention : Nat) (actions : List Action) (e : Engine)
        (events : List Event) (id : String) (x : Execution) (at_ : Instant) (outcome : Outcome),
      Run (make registry (some a) retention) actions e events → .close ∉ actions →
      AllWritten events → e.execution? id = some x → x.phase = .done at_ outcome →
      ∃ r a', e.archive = some a' ∧ a'.store.get id = .ok (some r) ∧
        r.completedAt.isSome = true ∧ r.status = outcome.status.name := by
  intro hclaim
  have hcomputed : broken.any (fun run =>
      (run.2.1.execution? "b").any (fun x => x.phase.isDone &&
        x.outcome?.any (fun o => (Record.textOrNull o.error).isNone)) &&
        run.2.2.all (fun event => !event.isFault) && !(written "b" run.2.2).isEmpty) = true := by
    decide +kernel
  obtain ⟨⟨actions, e, events⟩, hsome, hrest⟩ := (Option.any_eq_true _ _).1 hcomputed
  simp only [Bool.and_eq_true, Bool.not_eq_true', List.isEmpty_eq_false_iff] at hrest
  obtain ⟨⟨hany, hall⟩, hwritten⟩ := hrest
  obtain ⟨x, hx, hends⟩ := (Option.any_eq_true _ _).1 hany
  obtain ⟨hisDone, houtcome⟩ := Bool.and_eq_true_iff.1 hends
  obtain ⟨at_, outcome, hdone⟩ := phase_of_isDone hisDone
  rw [Execution.outcome?, hdone] at houtcome
  have hnot : ¬outcome.IsPlain := Outcome.not_isPlain_of_isNone houtcome
  have hrun := Run.of_performNew rfl hsome
  have hopen := not_closed_of_performNew hsome
  have hwrites := allWritten_of_all hall
  obtain ⟨r, a, ha, hget, hcompleted, -⟩ := hclaim _ _ _ _ _ _ _ _ _ _ hrun hopen hwrites hx hdone
  rcases (hrun.record_of_done rfl rfl rfl rfl hopen hwrites hx hdone).2 hnot with
    ⟨r', states, hhas, hrunning⟩ | ⟨hnothing, -⟩
  · rw [hhas.eq_of_get ha hget, hrunning.completedAt] at hcompleted
    cases hcompleted
  · exact hwritten hnothing

end Engine

end ReminderFlow
