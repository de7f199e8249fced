import ReminderFlow.CommandLine.Plan
import ReminderFlow.Proofs.Engine.Closing
import ReminderFlow.Proofs.Engine.Found
import ReminderFlow.Proofs.Engine.Reminder
import ReminderFlow.Proofs.Service.Trigger

namespace ReminderFlow

open Machine (Delivered given together taskOutcome outcomeOf?)

/-- An execution with such an outcome has its document printed, or its error and its cause. -/
inductive Outcome.IsPresentable (o : Outcome) : Prop
  | succeeded {doc : Document} (status : o.status = .succeeded) (document : o.document = some doc)
  | unsuccessful {error cause : String} (status : o.status = .failed ∨ o.status = .timedOut)
      (told : o.error = .str error) (because : o.cause = .str cause)

theorem Outcome.isPresentable_failed (error cause : String) :
    (failed (.str error) (.str cause)).IsPresentable := .unsuccessful (.inl rfl) rfl rfl

theorem Outcome.isPresentable_ofCut {o : Outcome} {deadline : Instant}
    (h : o = timedOut deadline ∨ o = cancelled) : o.IsPresentable := by
  rcases h with rfl | rfl
  · exact .unsuccessful (.inr rfl) rfl rfl
  · exact isPresentable_failed _ _

/-- The chain of an execution that ends so has an outcome which can be presented. -/
def Presents (r : Except Failure Document) : Prop :=
  ∀ deadline, ∃ o, Outcome.ofResult? deadline r = some o ∧ o.IsPresentable

theorem presents_of_delivered {r : Except Failure Document} {o : Outcome} (h : o.IsPresentable)
    (told : ∀ deadline, Outcome.ofResult? deadline r = outcomeOf? deadline (.ok o)) : Presents r :=
  fun deadline => ⟨o, told deadline, h⟩

theorem isPresentable_taskOutcome (g : Machine.Given) : (taskOutcome g).IsPresentable := by
  cases g with
  | ok doc => exact .succeeded rfl rfl
  | error cause => exact .unsuccessful (.inl rfl) rfl rfl

/-- Whatever an executor replies, outputs can be read and exceptions have texts. -/
def Registry.IsPlain (r : Registry) : Prop :=
  ∀ executor input reply, r.MayReply executor input reply → ∃ g, given reply = .ok g

theorem exists_together (first second : Machine.Given) :
    ∃ g, together (.ok first) (.ok second) = .ok g := by
  cases first with
  | error cause => exact ⟨.error cause, rfl⟩
  | ok doc =>
    cases second with
    | error cause => exact ⟨.error cause, rfl⟩
    | ok other => exact ⟨_, rfl⟩

/-- However a chain of the built-in machine ends, there is an outcome that can be presented. -/
theorem presents_reminder {r : Registry} (hplain : r.IsPlain)
    (hemail : r.contains Machine.emailExecutor = true) (hsms : r.contains Machine.smsExecutor = true)
    (doc : Document) :
    Chain.Ensures r.contains r.MayReply 15 (fun _ result => Presents result)
      (.ready Machine.reminder Machine.reminder.start doc) := by
  refine Chain.ensures_reminder_of hemail hsms (fun _ input h => Registry.exists_reply h input)
    (fun calls result ending hdelivered told => ?_) fun n _ _ deadline => ?_
  · cases hdelivered with
    | noWait absent => exact presents_of_delivered (Outcome.isPresentable_failed _ _) told
    | badWait wait bad tells => exact presents_of_delivered (Outcome.isPresentable_failed _ _) told
    | longWait wait bad long =>
      exact fun deadline => ⟨_, told deadline, Outcome.isPresentable_failed _ _⟩
    | noPreference wait good absent =>
      exact presents_of_delivered (Outcome.isPresentable_failed _ _) told
    | solo wait good preferred which replied =>
      obtain ⟨g, hg⟩ := hplain _ _ _ replied
      rw [hg] at told
      exact presents_of_delivered (isPresentable_taskOutcome g) told
    | both wait good preferred email sms =>
      obtain ⟨first, hfirst⟩ := hplain _ _ _ email
      obtain ⟨second, hsecond⟩ := hplain _ _ _ sms
      obtain ⟨g, hg⟩ := exists_together first second
      rw [hfirst, hsecond, hg] at told
      exact presents_of_delivered (isPresentable_taskOutcome g) told
    | noMatch wait good preferred other =>
      exact presents_of_delivered (Outcome.isPresentable_failed _ _) told
  · exact ⟨_, rfl, Outcome.isPresentable_failed _ _⟩

/-- What comes of a call of a channel that only logs can be told. -/
theorem Notifier.exists_given (n : Notifier) (document : Value) :
    ∃ g, given (n.reply document).result = .ok g := by
  have hmissing : ∃ g, given (.error n.missing) = .ok g := ⟨_, rfl⟩
  unfold reply
  split
  · rename_i fault hfault
    have hwritten : ∃ text, fault = Notifier.fault text := by
      unfold recipient? at hfault
      split at hfault
      · split at hfault
        · split_ifs at hfault
          exact ⟨_, (Except.error.inj hfault).symm⟩
        · exact ⟨_, (Except.error.inj hfault).symm⟩
      · exact ⟨_, (Except.error.inj hfault).symm⟩
    obtain ⟨text, rfl⟩ := hwritten
    exact ⟨_, rfl⟩
  · rename_i members recipient _
    let receipt : Value := .obj (Members.insert "delivery" (n.receipt recipient) members)
    show ∃ g, given (.ok (.ofValue receipt)) = .ok g
    rw [given]
    cases hdoc : Document.ofDatum (.ofValue receipt) with
    | ok doc => exact ⟨_, rfl⟩
    | error e =>
      obtain ⟨-, x, rfl, -⟩ := Datum.holdsNonFinite_of_toValue _ (map_eq_error_iff.1 hdoc)
      exact ⟨_, rfl⟩

namespace CommandLine

/-- The command ends with two, and tells why the input cannot be read. -/
structure Report.Refuses (r : Report) (reason : String) : Prop where
  ending : r.ending = .exit 2
  output : r.output = ""
  errors : r.errors = s!"Cannot read input: {reason}\n"

/-- The command breaks down and reports nothing. -/
structure Report.BreaksDown (r : Report) (f : Fault) : Prop where
  ending : r.ending = .fault f
  output : r.output = ""
  errors : r.errors = ""

/-- The report prints the document of an execution that has succeeded, and of any other it tells the
status with error and cause. -/
inductive Report.Tells (r : Report) (id : String) (o : Outcome) : Prop
  | succeeded {doc : Document} (status : o.status = .succeeded) (document : o.document = some doc)
      (ending : r.ending = .exit 0) (output : r.output = Json.pretty doc.value ++ "\n")
      (errors : r.errors = "")
  | unsuccessful {error cause : String} (status : o.status = .failed ∨ o.status = .timedOut)
      (told : o.error = .str error) (because : o.cause = .str cause) (ending : r.ending = .exit 1)
      (output : r.output = "")
      (errors : r.errors = s!"Execution {id} {o.status.name}: {error}: {cause}\n")

theorem refuses_ofBadInput (reason : String) (log : List Log.Record) :
    (Report.ofBadInput reason log).Refuses reason := ⟨rfl, rfl, rfl⟩

theorem breaksDown_ofFault (f : Fault) (log : List Log.Record) :
    (Report.ofFault f log).BreaksDown f := ⟨rfl, rfl, rfl⟩

theorem tells_ofOutcome (id : String) {o : Outcome} (h : o.IsPresentable) (log : List Log.Record) :
    (Report.ofOutcome id o log).Tells id o := by
  cases h with
  | succeeded status document =>
    rw [Report.ofOutcome, status, document]
    exact .succeeded status document rfl rfl rfl
  | @unsuccessful error cause status told because =>
    have hline : Report.endLine id o =
        .ok s!"Execution {id} {o.status.name}: {error}: {cause}\n" := by
      rw [Report.endLine, told, because]
      rfl
    have hreport : Report.ofOutcome id o log = { ending := .exit 1, log := log, errors :=
        s!"Execution {id} {o.status.name}: {error}: {cause}\n" } := by
      rw [Report.ofOutcome, hline]
      rcases status with status | status <;> rw [status]
    rw [hreport]
    exact .unsuccessful status told because rfl rfl rfl

/-- One execution is run to its end, and it is done after so many nanoseconds. No other one is
started; it is of the built-in machine and for what the input holds. -/
structure Launch.RunsToEnd (l : Launch) (first : Scheduler) (v : Value) (timeout : Double)
    (n : Nat) (o : Outcome) : Prop where
  run : ∃ moves events, Engine.Run first.engine
    (.start first.instant l.id (some Machine.reminder) (.ofValue v) (.float timeout) false :: moves)
      (l.upTo n).scheduler.engine events ∧ ∀ a ∈ moves, ∃ now m, a = .move now m
  done : ∃ x at_, (l.upTo n).scheduler.engine.execution? l.id = some x ∧
    x.machine = Machine.reminder ∧ Document.ofDatum (.ofValue v) = .ok x.input ∧ x.phase = .done at_ o
  outcome : (l.upTo n).outcome? = some o
  single : ∀ other, other ≠ l.id → (l.upTo n).scheduler.engine.execution? other = none

/-- How many turns of the loop may be left when an execution of the built-in machine is done: it has
gone on by itself seventeen times at the most. -/
def turnsLeft : Nat := 4 + 5 * (17 * 17)

/-- A launch that is done is reported on as its execution has ended. Only where the turns of the
loop are so slow that closing the engine takes too long it may break down instead. -/
inductive Launch.Reports (l : Launch) (turn : Nat) (o : Outcome) : Prop
  | tells (tells : (l.report o).Tells l.id o)
  | unclosed (slow : Scheduler.closingTime < turnsLeft * turn)
      (breaks : (l.report o).BreaksDown .closing)

/-- There are no executions but one that is done. -/
theorem isIdle_of_done {first e : Engine} {actions : List Engine.Action} {events : List Engine.Event}
    (hrun : Engine.Run first actions e events) (hfirst : first.executions = []) {id : String}
    {x : Execution} (hx : e.execution? id = some x) (hdone : x.phase.isDone = true)
    (hsingle : ∀ other, other ≠ id → e.execution? other = none) : e.IsIdle := by
  rintro ⟨other, y⟩ hp
  have hnodup : (Members.keys first.executions).Nodup := by
    rw [hfirst]
    exact List.nodup_nil
  have hy : e.execution? other = some y :=
    Members.lookup_of_mem (hrun.nodup_executions hnodup) hp
  by_cases hother : other = id
  · subst hother
    obtain rfl := Option.some.inj (hx.symm.trans hy)
    exact hdone
  · cases (hsingle other hother).symm.trans hy

/-- The turns that may be left take longer than closing waits, if closing breaks down although all
executions are done. -/
theorem slow_of_close? {s : Scheduler} {id : String} (h : s.Nears id (3 + 5 * (17 * 17)))
    (hidle : s.engine.IsIdle) (hclose : s.close? = none) :
    Scheduler.closingTime < turnsLeft * s.pace.turn := by
  obtain ⟨k, hattended, hload⟩ := h.attended
  obtain ⟨moves, hready, hlength⟩ := hattended.calm.exists_moves
  have hleft : moves.length + s.engine.writing.length + 1 ≤ turnsLeft := by
    rw [Scheduler.load] at hload
    unfold turnsLeft
    omega
  by_contra hquick
  have hsoon := (Nat.mul_le_mul_right s.pace.turn hleft).trans (Nat.le_of_not_lt hquick)
  have hsome := Scheduler.isSome_close? hidle hattended.calm.takes h.tended hready hsoon
  rw [hclose] at hsome
  cases hsome

section

variable {r : Registry} {x : Execution} {seen : List Chain.Event}
  (hsure : ∀ doc, Chain.Ensures r.contains r.MayReply 15 (fun _ result => Presents result)
    (.ready Machine.reminder Machine.reminder.start doc))
  (hmachine : x.machine = Machine.reminder)

include hsure hmachine

theorem presents_of_runs {result : Except Failure Document}
    (course : x.Runs r seen (.ended result)) : Presents result := by
  rw [Execution.Runs, hmachine] at course
  obtain ⟨k, -, hends⟩ := (hsure x.input).course course
  exact hends.holds

theorem isPresentable_of_story {mayCut : Prop} (story : Engine.Story r mayCut x seen)
    {at_ : Instant} {o : Outcome} (hphase : x.phase = .done at_ o) : o.IsPresentable := by
  have hend : x.phase.end? = some (at_, o) := by
    rw [hphase]
    rfl
  cases story with
  | scheduled phase => cases hphase.symm.trans phase
  | running phase => cases hphase.symm.trans phase
  | settled ending told course =>
    obtain ⟨-, rfl⟩ := Prod.mk.inj (Option.some.inj (hend.symm.trans ending))
    obtain ⟨o', ho', hpresentable⟩ := presents_of_runs hsure hmachine course x.deadline
    obtain rfl := Option.some.inj (told.symm.trans ho')
    exact hpresentable
  | cut ending allowed how =>
    obtain ⟨-, rfl⟩ := Prod.mk.inj (Option.some.inj (hend.symm.trans ending))
    exact Outcome.isPresentable_ofCut how

end

/-- An execution of the built-in machine that is launched by itself is run to its end and reported
on. -/
theorem Launch.runsToEnd {first : Scheduler} {l : Launch} {v : Value} {timeout : Double}
    (hsound : first.Sound) (hcalm : first.Calm l.id) (hplans : first.plans = [])
    (hwriting : first.engine.writing = []) (hnone : first.engine.executions = [])
    (hplain : first.engine.registry.IsPlain)
    (hemail : first.engine.registry.contains Machine.emailExecutor = true)
    (hsms : first.engine.registry.contains Machine.smsExecutor = true)
    (done : first.start l.id (some Machine.reminder) (.ofValue v) (.float timeout) =
      .ok l.scheduler) :
    ∃ n o, l.RunsToEnd first v timeout n o ∧ (l.upTo n).Reports first.pace.turn o := by
  have hnew (id : String) : first.engine.execution? id = none := by
    rw [Engine.execution?, hnone]
    rfl
  have hsure := presents_reminder hplain hemail hsms
  have hnears := hcalm.start hsound hplans hwriting (hnew _) hsure done
  let trigger : Trigger := ⟨Machine.reminder, .float timeout, .whole 0, .ample⟩
  have hstarts : Trigger.Starts trigger first l.id (.ofValue v) l.scheduler :=
    Trigger.starts_of_start hsound (hnew _) done
  have hstory {t : Scheduler} (hlater : Trigger.Starts trigger first l.id (.ofValue v) t)
      {x : Execution} (hx : t.engine.execution? l.id = some x) :
      ∃ mayCut seen, Engine.Story first.engine.registry mayCut x seen := by
    obtain ⟨moves, events, hrun, -⟩ := hlater.run
    obtain ⟨-, told⟩ := hrun.told (hnew l.id)
    exact ⟨_, _, told.story x hx⟩
  obtain ⟨t, hgoes, -, hover⟩ := hnears.comes
  have hpasses := hnears.sound.goes hgoes
  have hdone : Scheduler.isDone l.id t = true := by
    -- The main chain always ends with something that an outcome can tell.
    refine hover.resolve_right ?_
    rintro ⟨x, r, hx, hphase, hmute⟩
    have hlater := hstarts.plays hpasses.sound hpasses.plays
    obtain ⟨y, hy, hmachine, -⟩ := hlater.execution
    obtain rfl := Option.some.inj (hx.symm.trans hy)
    obtain ⟨mayCut, seen, story⟩ := hstory hlater hx
    obtain ⟨o, ho, -⟩ := presents_of_runs hsure hmachine (story.runs hphase) x.deadline
    cases hmute.symm.trans ho
  have hsince := hpasses.since
  have hbefore : t.now < l.scheduler.now + (t.now + 1 - l.scheduler.now) := by omega
  obtain ⟨u, hgoes', hdone', hwaited⟩ := hnears.sound.runUntil_of_goes (Scheduler.isDone l.id)
    (t.now + 1 - l.scheduler.now) hgoes hdone hbefore (by omega)
  have hu : (l.upTo (t.now + 1)).scheduler = u := hwaited
  have hpasses' := hnears.sound.goes hgoes'
  have hlater := hstarts.plays hpasses'.sound hpasses'.plays
  obtain ⟨x, hx, hmachine, hinput⟩ := hlater.execution
  obtain ⟨at_, o, hphase⟩ := Engine.phase_of_isDone (Trigger.isDone_eq hx ▸ hdone')
  refine ⟨t.now + 1, o, ⟨hu ▸ hlater.run, ⟨x, at_, hu ▸ hx, hmachine, hinput, hphase⟩, ?_,
    fun other hne => hu ▸ hlater.single other hne (hnew other)⟩, ?_⟩
  · have hend : x.phase.end? = some (at_, o) := by
      rw [hphase]
      rfl
    show ((l.upTo (t.now + 1)).scheduler.engine.execution? l.id).bind _ = some o
    rw [hu, hx, Option.bind_some, hphase]
    exact Execution.outcome?_of_end hend
  · cases hclose : u.close? with
    | some after =>
      obtain ⟨mayCut, seen, story⟩ := hstory hlater hx
      refine .tells ?_
      rw [Launch.report, hu, hclose]
      exact tells_ofOutcome _ (isPresentable_of_story hsure hmachine story hphase) _
    | none =>
      refine .unclosed ?_ ?_
      · obtain ⟨actions, events, hrun, -⟩ := hlater.run
        have hidle := isIdle_of_done hrun hnone hx (by rw [hphase]; rfl) fun other hne =>
          hlater.single other hne (hnew other)
        have hpace : u.pace = first.pace :=
          hpasses'.pace.trans (hsound.start (hnew _) done).2.2.1
        exact hpace ▸ slow_of_close? (hnears.goes hgoes') hidle hclose
      · rw [Launch.report, hu, hclose]
        exact breaksDown_ofFault _ _

end CommandLine

end ReminderFlow
