import ReminderFlow.Proofs.Engine.Logging
import ReminderFlow.Proofs.Engine.Plain
import ReminderFlow.Proofs.Engine.Schedule
import ReminderFlow.Proofs.Store

namespace ReminderFlow

namespace Execution

/-- The record tells that the execution runs, and where its chains are. -/
structure RunningRecord (id : String) (x : Execution) (states : List (String × String))
    (r : Record) : Prop where
  executionId : r.executionId = id
  status : r.status = Status.running.name
  startedAt : r.startedAt = x.started.text
  deadline : r.deadline = x.deadline.text
  input : r.input = x.input.value
  currentStates : r.currentStates = states
  completedAt : r.completedAt = none
  output : r.output = .null
  error : r.error = none
  cause : r.cause = none

/-- The last record of an execution: every field, as its outcome has it. -/
structure LastRecord (id : String) (x : Execution) (at_ : Instant) (outcome : Outcome) (r : Record) :
    Prop where
  executionId : r.executionId = id
  status : r.status = outcome.status.name
  startedAt : r.startedAt = x.started.text
  deadline : r.deadline = x.deadline.text
  input : r.input = x.input.value
  currentStates : r.currentStates = []
  completedAt : r.completedAt = some at_.text
  output : r.output = (outcome.document.map Document.value).getD .null
  error : Record.optional r.error = outcome.error
  cause : Record.optional r.cause = outcome.cause

theorem Reports.runningRecord {id : String} {x : Execution} {states : List (String × String)}
    {r : Record} (h : x.Reports id states none r) : x.RunningRecord id states r := by
  obtain ⟨now, hr⟩ := h
  cases hr
  exact ⟨rfl, rfl, rfl, rfl, rfl, rfl, rfl, rfl, rfl, rfl⟩

theorem optional_of_textOrNull {v : Value} {s : Option String} (h : Record.textOrNull v = some s) :
    Record.optional s = v := by
  cases v with
  | null =>
    cases h
    rfl
  | str t =>
    cases h
    rfl
  | _ => cases h

theorem Reports.lastRecord {id : String} {x : Execution} {at_ : Instant} {outcome : Outcome}
    {r : Record} (h : x.Reports id [] (some (at_, outcome)) r) : x.LastRecord id at_ outcome r := by
  obtain ⟨now, hr⟩ := h
  simp only [Record.last?, Option.bind_eq_bind, Option.bind_eq_some_iff] at hr
  obtain ⟨error, herror, cause, hcause, heq⟩ := hr
  cases heq
  exact ⟨rfl, rfl, rfl, rfl, rfl, rfl, rfl, rfl, optional_of_textOrNull herror,
    optional_of_textOrNull hcause⟩

/-- Of a plain outcome there is a record. -/
theorem exists_reports (id : String) (x : Execution) (now at_ : Instant) {outcome : Outcome}
    (h : outcome.IsPlain) :
    ∃ r, Record.last? id x.started x.deadline now x.input [] at_ outcome = some r := by
  obtain ⟨herror, hcause⟩ := h
  obtain ⟨error, herror⟩ := Value.isTextOrNull_iff.1 herror
  obtain ⟨cause, hcause⟩ := Value.isTextOrNull_iff.1 hcause
  simp [Record.last?, herror, hcause]

theorem isPlain_of_last? {id : String} {started deadline now at_ : Instant} {input : Document}
    {outcome : Outcome} {r : Record}
    (h : Record.last? id started deadline now input [] at_ outcome = some r) :
    outcome.IsPlain := by
  simp only [Record.last?, Option.bind_eq_bind, Option.bind_eq_some_iff] at h
  obtain ⟨error, herror, cause, hcause, -⟩ := h
  exact ⟨Value.isTextOrNull_iff.2 ⟨error, herror⟩, Value.isTextOrNull_iff.2 ⟨cause, hcause⟩⟩

end Execution

namespace Engine

def file? (e : Engine) (id : String) : Option Entry := e.archive.bind fun a => a.store.file? id

/-- The records of an execution that were written without a fault. -/
def stored (id : String) (events : List Event) : List Record :=
  events.filterMap fun
    | .written r none => if r.executionId = id then some r else none
    | _ => none

/-- The text of the latest record, where there is one. -/
def latest (before : Option Entry) (records : List Record) : Option Entry :=
  match records.getLast? with
  | some r => some (.ofText (Store.fileText r))
  | none => before

theorem latest_append (before : Option Entry) (first second : List Record) :
    latest (latest before first) second = latest before (first ++ second) := by
  unfold latest
  rw [List.getLast?_append]
  cases second.getLast? <;> rfl

theorem stored_append (id : String) (before after : List Event) :
    stored id (before ++ after) = stored id before ++ stored id after :=
  List.filterMap_append

theorem stored_sublist_written (id : String) (events : List Event) :
    (stored id events).Sublist (written id events) := by
  induction events with
  | nil => exact .slnil
  | cons event rest ih =>
    cases event with
    | written r fault =>
      by_cases hid : r.executionId = id
      · cases fault with
        | none => simpa [stored, written, hid] using ih
        | some fault => simpa [stored, written, hid] using ih.cons r
      · cases fault <;> simpa [stored, written, hid] using ih
    | _ => exact ih

def Unwritten (events : List Event) : Prop := ∀ r fault, .written r fault ∉ events

theorem Unwritten.stored {events : List Event} (h : Unwritten events) (id : String) :
    stored id events = [] := by
  apply List.filterMap_eq_nil_iff.2
  intro event hevent
  cases event with
  | written r fault => exact (h r fault hevent).elim
  | _ => rfl

theorem Quiet.unwritten {events : List Event} (h : Quiet events) : Unwritten events :=
  fun _ _ hevent => h _ hevent

theorem Unwritten.append {before after : List Event} (hb : Unwritten before)
    (ha : Unwritten after) : Unwritten (before ++ after) := by
  intro r fault hevent
  rcases List.mem_append.1 hevent with hevent | hevent
  · exact hb r fault hevent
  · exact ha r fault hevent

theorem unwritten_persist (e : Engine) (r : Option Record) : Unwritten (e.persist r).2 := by
  intro s fault hevent
  obtain ⟨-, h⟩ | ⟨record, -, -, h⟩ | ⟨record, -, -, -, h⟩ := e.persist_cases r
  · rw [h] at hevent
    cases hevent
  · rw [h] at hevent
    cases List.mem_singleton.1 hevent
  · rw [h] at hevent
    cases List.mem_singleton.1 hevent

theorem unwritten_follow (e : Engine) (now : Instant) (id : String) (x : Execution)
    (events : List Chain.Event) : Unwritten (e.follow now id x events).2.2 := by
  induction events generalizing e x with
  | nil => exact quiet_nil.unwritten
  | cons event rest ih =>
    have hrest (d : Engine) (y : Execution) :
        Unwritten (.chain id event :: (d.follow now id y rest).2.2) :=
      (quiet_chain id [event]).unwritten.append (ih d y)
    cases event with
    | entered branch state type =>
      let y : Execution := { x with states := (Chain.Event.entered branch state type).track x.states }
      exact (unwritten_persist e (some (y.record id now))).append (hrest _ _)
    | _ => exact hrest e _

theorem unwritten_settle (e : Engine) (now : Instant) (id : String) (x : Execution)
    (outcome : Outcome) (left : List Chain.Event) (crash : Option Fault) :
    Unwritten (e.settle now id x outcome left crash).2 := by
  have hsettled : Quiet [.settled id outcome crash] := by
    intro event hevent
    rw [List.mem_singleton.1 hevent]
    trivial
  let y : Execution := { x with states := [], phase := .finishing now outcome }
  have hrest := hsettled.unwritten.append (unwritten_persist (e.put id y) (y.record? id now))
  exact (quiet_chain id left).unwritten.append hrest

/-- The archive is changed by the writes that are to be seen, and by nothing else. -/
inductive Writes : Engine → Engine → List Event → Prop where
  | nothing {e after : Engine} {more : List Event} (archive : after.archive = e.archive)
      (unwritten : Unwritten more) : Writes e after more
  | one {e after : Engine} {a : Archive} {r : Record} (before : e.archive = some a)
      (behind : after.archive = some (write a r).1) : Writes e after [.written r (write a r).2]
  | append {e d after : Engine} {events more : List Event} (first : Writes e d events)
      (second : Writes d after more) : Writes e after (events ++ more)

theorem writes_settle {e : Engine} (now : Instant) (id : String) (x : Execution)
    (outcome : Outcome) (left : List Chain.Event) (crash : Option Fault) :
    Writes e (e.settle now id x outcome left crash).1 (e.settle now id x outcome left crash).2 :=
  .nothing (archive_persist _ _) (unwritten_settle e now id x outcome left crash)

theorem Moves.writes {e after : Engine} {now : Instant} {move : Move} {events : List Event}
    (h : Moves e now move after events) : Writes e after events := by
  cases h with
  | begin found phase => exact .nothing rfl quiet_nil.unwritten
  | @chain id _ _ x y c next seen d events found phase made followed =>
    have harchive := archive_follow e now id { x with phase := .running next } seen
    have hunwritten := unwritten_follow e now id { x with phase := .running next } seen
    rw [followed] at harchive hunwritten
    exact .nothing harchive hunwritten
  | @settle id x r _ outcome _ found phase told settled =>
    have hwrites := writes_settle (e := e) now id x outcome [] (crash? r)
    rwa [settled] at hwrites
  | @expire id x c _ _ found phase unended suspended settled =>
    have hwrites := writes_settle (e := e) now id x (.timedOut x.deadline) (c.abandon "") none
    rwa [settled] at hwrites
  | @cancel id x c _ _ found phase closed unended suspended settled =>
    have hwrites := writes_settle (e := e) now id x .cancelled (c.abandon "") none
    rwa [settled] at hwrites
  | @withdraw id => exact .nothing rfl (quiet_withdraw e id).unwritten
  | write first archive => exact .one archive rfl
  | @release id x at_ outcome found phase gone =>
    exact .nothing rfl (quiet_release e id x at_ outcome).unwritten

theorem writes_register {e after : Engine} {now : Instant} {id : String} {m : Machine}
    {doc : Document} {deadline : Instant} {more : List Event}
    (done : e.register now id m doc deadline = (after, more)) : Writes e after more := by
  obtain ⟨rfl, rfl⟩ := persist_of_register done
  refine .nothing (archive_persist _ _) ((unwritten_persist _ _).append fun r fault hevent => ?_)
  cases List.mem_singleton.1 hevent

theorem Run.writes {first e : Engine} {actions : List Action} {events : List Event}
    (hrun : Run first actions e events) : Writes first e events := by
  induction hrun with
  | rest => exact .nothing rfl quiet_nil.unwritten
  | @next actions a d after seen more before happens ih =>
    refine ih.append ?_
    cases happens with
    | started fresh prepared done => exact writes_register done
    | refused done => exact .nothing rfl quiet_nil.unwritten
    | moved honest done => exact (moves_of_step done).writes
    | called done =>
      obtain ⟨x, -, ⟨rfl, outcome, -, rfl⟩ | ⟨rfl, -, rfl⟩⟩ := callback_of_addCallback done
      · refine .nothing rfl fun r fault hevent => ?_
        cases List.mem_singleton.1 hevent
      · exact .nothing rfl quiet_nil.unwritten
    | closed => exact .nothing rfl quiet_nil.unwritten
    | stopped => exact .nothing rfl quiet_nil.unwritten

theorem write_spec (a : Archive) (r : Record) :
    ((write a r).2 = none ∧ r.IsStorable a.store.codec ∧
      (write a r).1.store.file? r.executionId = some (.ofText (Store.fileText r)) ∧
      ∀ id, id ≠ r.executionId → (write a r).1.store.file? id = a.store.file? id) ∨
    ((write a r).2 ≠ none ∧ ∀ id, (write a r).1.store.file? id = a.store.file? id) := by
  unfold write
  split_ifs
  · exact .inr ⟨by simp, fun _ => rfl⟩
  · exact a.store.put_spec r

/-- The store goes on to have the text of the latest record of every execution. -/
theorem Writes.files {e after : Engine} {more : List Event} (h : Writes e after more) (id : String) :
    after.file? id = latest (e.file? id) (stored id more) := by
  induction h with
  | nothing archive unwritten =>
    rw [unwritten.stored, file?, archive]
    rfl
  | @one e after a r before behind =>
    have hbefore : e.file? id = a.store.file? id := by rw [file?, before]; rfl
    have hafter : after.file? id = (write a r).1.store.file? id := by rw [file?, behind]; rfl
    rw [hbefore, hafter]
    rcases write_spec a r with ⟨hnone, -, hfile, hother⟩ | ⟨hfault, hsame⟩
    · by_cases hid : r.executionId = id
      · subst hid
        rw [hfile, hnone]
        simp [stored, latest]
      · rw [hother id (Ne.symm hid), hnone]
        simp [stored, latest, hid]
    · obtain ⟨fault, hfault⟩ := Option.ne_none_iff_exists'.1 hfault
      rw [hsame, hfault]
      simp [stored, latest]
  | append first second ihfirst ihsecond =>
    rw [ihsecond, ihfirst, latest_append, stored_append]

theorem codec_write (a : Archive) (r : Record) : (write a r).1.store.codec = a.store.codec := by
  unfold write
  split_ifs
  · rfl
  · have hcodec := a.store.codec_putAmid r none
    rwa [Store.putAmid_none] at hcodec

/-- No store comes or goes. -/
theorem Writes.isSome_archive {e after : Engine} {more : List Event} (h : Writes e after more) :
    after.archive.isSome = e.archive.isSome := by
  induction h with
  | nothing archive unwritten => rw [archive]
  | one before behind => rw [before, behind]; rfl
  | append first second ihfirst ihsecond => exact ihsecond.trans ihfirst

/-- The store keeps its codec, and what was written without a fault it takes. -/
theorem Writes.isStorable {e after : Engine} {more : List Event} (h : Writes e after more)
    {a : Archive} (ha : after.archive = some a) :
    (∃ first, e.archive = some first ∧ first.store.codec = a.store.codec) ∧
      ∀ r, .written r none ∈ more → r.IsStorable a.store.codec := by
  induction h generalizing a with
  | nothing archive unwritten =>
    exact ⟨⟨a, archive ▸ ha, rfl⟩, fun r hr => (unwritten r none hr).elim⟩
  | @one e after first r before behind =>
    obtain rfl := Option.some.inj (behind.symm.trans ha)
    have hcodec := codec_write first r
    refine ⟨⟨first, before, hcodec.symm⟩, fun s hs => ?_⟩
    have heq := List.mem_singleton.1 hs
    injection heq with hrecord hnone
    subst hrecord
    rcases write_spec first s with ⟨-, hstorable, -⟩ | ⟨hfault, -⟩
    · exact hcodec ▸ hstorable
    · exact absurd hnone.symm hfault
  | append first second ihfirst ihsecond =>
    obtain ⟨⟨middle, hmiddle, hsame⟩, hsecond⟩ := ihsecond ha
    obtain ⟨⟨start, hstart, hcodec⟩, hfirst⟩ := ihfirst hmiddle
    rw [hsame] at hcodec hfirst
    exact ⟨⟨start, hstart, hcodec⟩, fun r hr => (List.mem_append.1 hr).elim (hfirst r) (hsecond r)⟩

/-- At any point of a run, the store has the text of the latest record that could be written. -/
theorem Run.files {first e : Engine} {actions : List Action} {events : List Event}
    (hrun : Run first actions e events) (id : String) :
    e.file? id = latest (first.file? id) (stored id events) := hrun.writes.files id

theorem phase_of_put {e : Engine} {id : String} {x y : Execution}
    (h : (e.put id x).execution? id = some y) : y.phase = x.phase := by
  rw [execution?_put_self] at h
  rw [Option.some.inj h]

/-- An execution is done by a release, which waits until its last record has been written. -/
theorem Moves.release_of_done {e after : Engine} {now : Instant} {move : Move} {events : List Event}
    (h : Moves e now move after events) {id : String} {y : Execution}
    (hy : after.execution? id = some y) (hdone : y.phase.isDone = true) :
    (∃ x, e.execution? id = some x ∧ x.phase.isDone = true) ∨
      (e.isWriting id = false ∧ after.writing = e.writing) := by
  by_cases hsubject : move.subject? = some id
  case neg =>
    rw [h.execution?_of_ne hsubject] at hy
    exact .inl ⟨y, hy, hdone⟩
  cases h with
  | begin found phase =>
    cases hsubject
    rw [phase_of_put hy] at hdone
    cases hdone
  | @chain _ _ _ x z c next seen d _ found phase made followed =>
    cases hsubject
    obtain ⟨-, -, ⟨states, hstates⟩, -⟩ := e.follow_spec now id { x with phase := .running next } seen
    rw [followed] at hstates
    rw [phase_of_put hy, show z = { x with phase := .running next, states := states } from hstates]
      at hdone
    cases hdone
  | @settle _ x r _ outcome _ found phase told settled =>
    cases hsubject
    have hexecution := execution?_settle e now id x outcome [] (crash? r) id
    rw [settled] at hexecution
    rw [phase_of_put (hexecution.symm.trans hy)] at hdone
    cases hdone
  | @expire _ x c _ _ found phase unended suspended settled =>
    cases hsubject
    have hexecution := execution?_settle e now id x (.timedOut x.deadline) (c.abandon "") none id
    rw [settled] at hexecution
    rw [phase_of_put (hexecution.symm.trans hy)] at hdone
    cases hdone
  | @cancel _ x c _ _ found phase closed unended suspended settled =>
    cases hsubject
    have hexecution := execution?_settle e now id x .cancelled (c.abandon "") none id
    rw [settled] at hexecution
    rw [phase_of_put (hexecution.symm.trans hy)] at hdone
    cases hdone
  | withdraw found phase =>
    cases hsubject
    exact .inl ⟨y, hy, hdone⟩
  | write first archive => cases hsubject
  | release found phase gone =>
    cases hsubject
    exact .inr ⟨gone, rfl⟩

theorem Happens.release_of_done {e after : Engine} {a : Action} {events : List Event} {id : String}
    {y : Execution} (h : Happens e a after events) (hy : after.execution? id = some y)
    (hdone : y.phase.isDone = true) :
    (∃ x, e.execution? id = some x ∧ x.phase.isDone = true) ∨
      (e.isWriting id = false ∧ after.writing = e.writing) := by
  cases h with
  | @started now other machine input limit m doc deadline _ _ fresh prepared done =>
    rw [execution?, (register_spec done).1] at hy
    by_cases hne : id = other
    · subst hne
      rw [phase_of_put hy] at hdone
      cases hdone
    · exact .inl ⟨y, (e.execution?_put_of_ne hne _).symm.trans hy, hdone⟩
  | refused done => exact .inl ⟨y, hy, hdone⟩
  | moved honest done => exact (moves_of_step done).release_of_done hy hdone
  | @called other callback _ _ raised done =>
    obtain ⟨x, hx, ⟨rfl, -⟩ | ⟨rfl, -⟩⟩ := callback_of_addCallback done
    · exact .inl ⟨y, hy, hdone⟩
    · by_cases hne : id = other
      · subst hne
        rw [phase_of_put hy] at hdone
        exact .inl ⟨x, hx, hdone⟩
      · exact .inl ⟨y, (e.execution?_put_of_ne hne _).symm.trans hy, hdone⟩
  | closed => exact .inl ⟨y, hy, hdone⟩
  | stopped => exact .inl ⟨y, hy, hdone⟩

/-- If the last record of an execution is no longer on its way, then none of its records is. -/
theorem Logged.queued_eq_nil {e : Engine} {id : String} {x : Execution} {events : List Event}
    (h : Logged id x events) (horder : written id events ++ e.queued id = recorded id events)
    {at_ : Instant} {outcome : Outcome} (hend : x.phase.end? = some (at_, outcome))
    (hplain : outcome.IsPlain) (hgone : e.isWriting id = false) : e.queued id = [] := by
  obtain ⟨opening, entries, closing, hrecords, -, -, hclosing⟩ := h.records
  rw [Closes, hend] at hclosing
  obtain ⟨now, hclosing⟩ := hclosing
  obtain ⟨r, hr⟩ := Execution.exists_reports id x now at_ hplain
  have hlast : x.LastRecord id at_ outcome r := Execution.Reports.lastRecord ⟨now, hr⟩
  rw [hr] at hclosing
  by_contra hne
  have hgetLast : (e.queued id).getLast? = some r := by
    have hrecorded : (written id events ++ e.queued id).getLast? = some r := by
      rw [horder, hrecords, hclosing, ← List.cons_append]
      exact List.getLast?_concat
    rwa [List.getLast?_append_of_ne_nil _ hne] at hrecorded
  have hmem := List.mem_filter.1 (List.mem_of_getLast? hgetLast)
  have hwriting : e.isWriting id = true := by
    refine List.any_eq_true.2 ⟨r, hmem.1, ?_⟩
    simp [isLastRecord, hlast.executionId, hlast.completedAt]
  rw [hgone] at hwriting
  cases hwriting

/-- While the engine is not closed, an execution that is done with a plain outcome has no record on
its way. -/
theorem Run.delivered {first e : Engine} {actions : List Action} {events : List Event} {id : String}
    (hrun : Run first actions e events) (hfirst : first.execution? id = none)
    (htakes : first.takes = true) (hempty : first.queued id = []) (hclosed : first.closed = false)
    (hopen : .close ∉ actions) :
    ∀ x at_ outcome, e.execution? id = some x → x.phase = .done at_ outcome → outcome.IsPlain →
      e.queued id = [] := by
  induction hrun with
  | rest =>
    intro x at_ outcome hx
    rw [hfirst] at hx
    cases hx
  | @next actions a d after events more before happens ih =>
    have hbefore : .close ∉ actions := fun hmem => hopen (List.mem_append_left _ hmem)
    have hall := before.next happens
    have hgoes := hall.goes_of_open hclosed hopen
    intro y at_ outcome hy hphase hplain
    have hend : y.phase.end? = some (at_, outcome) := by rw [hphase]; rfl
    have hdone : y.phase.isDone = true := by rw [hphase]; rfl
    rcases happens.release_of_done hy hdone with ⟨x, hx, hxdone⟩ | ⟨hgone, hsame⟩
    · obtain ⟨at', outcome', hxphase⟩ := phase_of_isDone hxdone
      have hxend : x.phase.end? = some (at', outcome') := by rw [hxphase]; rfl
      have hnot : a ≠ .stop := by
        rintro rfl
        exact hgoes (List.mem_append_right _ List.mem_cons_self)
      obtain ⟨hrecorded, z, hz, hsame⟩ := (happens.logs hx hnot).ended x hx (by rw [hxend]; rfl)
      obtain rfl := Option.some.inj (hy.symm.trans hz)
      rw [hend, hxend] at hsame
      cases hsame
      have hqueued := ih hbefore x at_ outcome hx hxphase hplain
      have horder : written id more ++ after.queued id = d.queued id ++ recorded id more :=
        happens.conserves (happens.ne_withdraw (before.closed_eq_false hclosed hbefore)) id
      rw [hqueued, hrecorded, List.append_nil] at horder
      exact (List.append_eq_nil_iff.1 horder).2
    · have horder := hall.written_append_queued hclosed hopen hempty
      have hgone' : after.isWriting id = false := by rwa [isWriting, hsame]
      exact ((hall.kept hfirst htakes hgoes).logged y hy).queued_eq_nil horder hend hplain hgone'

/-- The log of an execution: first the record of its start, then one for each state that is entered,
with the pointers right after the entry, and at last the one of its end. They are written in this
order, and all of them before the execution is done. -/
structure InOrder (id : String) (x : Execution) (events : List Event) : Prop where
  pointers : x.states =
    if x.phase.end?.isSome then [] else tracked [] (chainEvents id events)
  handed : ∃ opening entries closing, recorded id events = opening :: (entries ++ closing) ∧
    x.RunningRecord id [] opening ∧
    List.Forall₂ (x.RunningRecord id) (snapshots [] (chainEvents id events)) entries ∧
    match x.phase.end? with
    | none => closing = []
    | some (at_, outcome) => ∃ r, closing = [r] ∧ x.LastRecord id at_ outcome r
  order : written id events <+: recorded id events
  complete : x.phase.isDone = true → written id events = recorded id events

/-- The second record stands in the log where the first one does, or further on. -/
def NotBefore (log : List Record) (r r' : Record) : Prop :=
  ∃ i j : Nat, i ≤ j ∧ log[i]? = some r ∧ log[j]? = some r'

theorem Logged.handed {id : String} {x : Execution} {events : List Event} (h : Logged id x events)
    (hplain : ∀ at_ outcome, x.phase.end? = some (at_, outcome) → outcome.IsPlain) :
    ∃ opening entries closing, recorded id events = opening :: (entries ++ closing) ∧
      x.RunningRecord id [] opening ∧
      List.Forall₂ (x.RunningRecord id) (snapshots [] (chainEvents id events)) entries ∧
      match x.phase.end? with
      | none => closing = []
      | some (at_, outcome) => ∃ r, closing = [r] ∧ x.LastRecord id at_ outcome r := by
  obtain ⟨opening, entries, closing, hrecords, hopening, hentries, hclosing⟩ := h.records
  refine ⟨opening, entries, closing, hrecords, hopening.runningRecord, ?_, ?_⟩
  · exact hentries.imp fun states r hr => hr.runningRecord
  · unfold Closes at hclosing
    cases hend : x.phase.end? with
    | none => rwa [hend] at hclosing
    | some end_ =>
      obtain ⟨at_, outcome⟩ := end_
      rw [hend] at hclosing
      obtain ⟨now, hclosing⟩ := hclosing
      obtain ⟨r, hr⟩ := Execution.exists_reports id x now at_ (hplain at_ outcome hend)
      rw [hr] at hclosing
      exact ⟨r, hclosing, Execution.Reports.lastRecord ⟨now, hr⟩⟩

/-- Once the execution has ended, nothing more is handed over. -/
theorem Run.recorded_of_ended {e after : Engine} {actions : List Action} {more : List Event}
    {id : String} {x : Execution} (hrun : Run e actions after more) (hgoes : .stop ∉ actions)
    (hx : e.execution? id = some x) (hended : x.phase.end?.isSome = true) :
    recorded id more = [] ∧ ∃ y, after.execution? id = some y ∧ y.phase.end? = x.phase.end? := by
  induction hrun with
  | rest => exact ⟨rfl, x, hx, rfl⟩
  | @next actions a d after events more before happens ih =>
    rw [List.mem_append, List.mem_singleton, not_or] at hgoes
    obtain ⟨hnothing, y, hy, hend⟩ := ih hgoes.1
    obtain ⟨hrecorded, z, hz, hend'⟩ :=
      (happens.logs hy (Ne.symm hgoes.2)).ended y hy (by rwa [hend])
    exact ⟨by rw [recorded_append, hnothing, hrecorded, List.append_nil], z, hz, hend'.trans hend⟩

theorem exists_of_mem_right {α β : Type} {R : α → β → Prop} {as : List α} {bs : List β}
    (h : List.Forall₂ R as bs) {b : β} (hb : b ∈ bs) : ∃ a ∈ as, R a b := by
  induction h with
  | nil => cases hb
  | cons hr rest ih =>
    rcases List.mem_cons.1 hb with rfl | hb
    · exact ⟨_, List.mem_cons_self, hr⟩
    · obtain ⟨a, ha, hr⟩ := ih hb
      exact ⟨a, List.mem_cons_of_mem _ ha, hr⟩

/-- A record with an end is the last one of the log. -/
theorem Logged.last_of_completed {id : String} {x : Execution} {events : List Event}
    (h : Logged id x events) {r : Record} (hr : r ∈ recorded id events)
    (hcompleted : r.completedAt.isSome = true) :
    x.phase.end?.isSome = true ∧ ∃ before, recorded id events = before ++ [r] ∧ r ∉ before := by
  obtain ⟨opening, entries, closing, hrecords, hopening, hentries, hclosing⟩ := h.records
  have hrunning : r ∉ opening :: entries := by
    intro hmem
    have hnone : r.completedAt = none := by
      rcases List.mem_cons.1 hmem with rfl | hmem
      · exact hopening.runningRecord.completedAt
      · obtain ⟨states, -, hreports⟩ := exists_of_mem_right hentries hmem
        exact hreports.runningRecord.completedAt
    rw [hnone] at hcompleted
    cases hcompleted
  rw [hrecords, ← List.cons_append] at hr
  have hmem := (List.mem_append.1 hr).resolve_left hrunning
  unfold Closes at hclosing
  cases hend : x.phase.end? with
  | none =>
    rw [hend] at hclosing
    subst hclosing
    cases hmem
  | some end_ =>
    rw [hend] at hclosing
    obtain ⟨now, rfl⟩ := hclosing
    rw [Option.mem_toList] at hmem
    refine ⟨rfl, opening :: entries, ?_, hrunning⟩
    rw [hrecords, hmem]
    rfl

/-- What the store has of an execution goes on along the log, never back. -/
theorem notBefore_of_append {log earlier later : List Record} {written more : List Record}
    (hlog : written ++ more <+: log) (hearlier : earlier.Sublist written) (hlater : later.Sublist more)
    {r : Record} (hr : earlier.getLast? = some r) :
    ∃ r', (earlier ++ later).getLast? = some r' ∧ NotBefore log r r' := by
  obtain ⟨i, hi, hri⟩ := List.getElem_of_mem (hearlier.subset (List.mem_of_getLast? hr))
  obtain ⟨rest, rfl⟩ := hlog
  have hfirst : (written ++ more ++ rest)[i]? = some r := by
    rw [List.append_assoc, List.getElem?_append_left hi, List.getElem?_eq_getElem hi, hri]
  cases hlast : later.getLast? with
  | none =>
    refine ⟨r, ?_, i, i, Nat.le_refl i, hfirst, hfirst⟩
    rw [List.getLast?_append, hlast, hr]
    rfl
  | some r' =>
    obtain ⟨j, hj, hrj⟩ := List.getElem_of_mem (hlater.subset (List.mem_of_getLast? hlast))
    refine ⟨r', ?_, i, written.length + j, by omega, hfirst, ?_⟩
    · rw [List.getLast?_append, hlast]
      rfl
    · rw [List.append_assoc, List.getElem?_append_right (by omega), Nat.add_sub_cancel_left,
        List.getElem?_append_left hj, List.getElem?_eq_getElem hj, hrj]

/-- The log of every execution on an engine that is not closed meanwhile, where each Fail state that
is entered gives texts or null: the records are handed over and written in order. What the store has
of the execution is the latest of those that could be written; later on it is never an older one,
and a last record stays. -/
theorem Run.logs_in_order {registry : Registry} {a : Archive} {retention : Nat}
    {actions : List Action} {e : Engine} {events : List Event} {id : String} {x : Execution}
    (hrun : Run (make registry (some a) retention) actions e events)
    (hopen : .close ∉ actions)
    (hfails : FailsOnlyWith Failure.IsPlain (make registry (some a) retention) actions id)
    (hx : e.execution? id = some x) :
    InOrder id x events ∧ (stored id events).Sublist (written id events) ∧
      e.file? id = latest (a.store.file? id) (stored id events) ∧
      ∀ further after more, Run e further after more → .close ∉ further →
        after.file? id = latest (a.store.file? id) (stored id events ++ stored id more) ∧
        (∀ r, (stored id events).getLast? = some r →
          ∃ r', (stored id events ++ stored id more).getLast? = some r' ∧
            NotBefore (recorded id (events ++ more)) r r') ∧
        ∀ r ∈ stored id events, r.completedAt.isSome = true → after.file? id = e.file? id := by
  have hfirst : (make registry (some a) retention).execution? id = none := rfl
  have hlogged := (hrun.kept hfirst rfl (hrun.goes_of_open rfl hopen)).logged x hx
  have horder : written id events ++ e.queued id = recorded id events :=
    hrun.conserved rfl hopen id
  have hfile : e.file? id = latest (a.store.file? id) (stored id events) := hrun.files id
  refine ⟨⟨hlogged.pointers, ?_, ?_, ?_⟩, stored_sublist_written id events, hfile, ?_⟩
  · exact hlogged.handed fun at_ outcome hend => hrun.isPlain hfirst hfails hx hend
  · exact ⟨e.queued id, horder⟩
  · intro hdone
    obtain ⟨at_, outcome, hphase⟩ := phase_of_isDone hdone
    have hplain := hrun.isPlain hfirst hfails hx (by rw [hphase]; rfl)
    have hqueued := hrun.delivered hfirst rfl rfl rfl hopen x at_ outcome hx hphase hplain
    rwa [hqueued, List.append_nil] at horder
  · intro further after more hfurther hopen'
    have hclosed : e.closed = false := hrun.closed_eq_false rfl hopen
    have hconserved := hfurther.conserved hclosed hopen' id
    have hlater : after.file? id = latest (e.file? id) (stored id more) := hfurther.files id
    refine ⟨by rw [hlater, hfile, latest_append], fun r hr => ?_, fun r hr hcompleted => ?_⟩
    · apply notBefore_of_append _ (stored_sublist_written id events) (stored_sublist_written id more) hr
      refine ⟨after.queued id, ?_⟩
      rw [recorded_append, ← horder, List.append_assoc, hconserved, List.append_assoc]
    · have hwritten : r ∈ written id events := (stored_sublist_written id events).subset hr
      have hrecorded : r ∈ recorded id events := by
        rw [← horder]
        exact List.mem_append_left _ hwritten
      obtain ⟨hended, before, hlast, hnot⟩ := hlogged.last_of_completed hrecorded hcompleted
      have hqueued : e.queued id = [] := by
        by_contra hne
        have hbefore := congrArg List.dropLast (horder.trans hlast)
        rw [List.dropLast_append_of_ne_nil hne, List.dropLast_concat] at hbefore
        exact hnot (hbefore ▸ List.mem_append_left _ hwritten)
      rw [hqueued, (hfurther.recorded_of_ended (hfurther.goes_of_open hclosed hopen') hx hended).1,
      List.append_nil] at hconserved
      have hnothing := (List.append_eq_nil_iff.1 hconserved).1
      have hstored : stored id more = [] := by
        have hsub := stored_sublist_written id more
        rw [hnothing] at hsub
        exact List.sublist_nil.1 hsub
      rw [hlater, hstored]
      rfl

def quarrel : Machine :=
  .mk "Fork"
    [("Fork", .parallel
      [.mk "Rest" [("Rest", .succeed)] "", .mk "Stop" [("Stop", .fail .null (.str "Broken"))] ""] []
      .null)]
    ""

theorem failsPlainly_quarrel : quarrel.FailsPlainly := by
  have hrest : Machine.FailsPlainly (.mk "Rest" [("Rest", .succeed)] "") := by
    refine .intro (fun name cause error hs => ?_) (fun name branches strays next hs => ?_)
    all_goals
      have hmem := Machine.mem_states_of_state? hs
      simp [Machine.states] at hmem
  have hstop : Machine.FailsPlainly (.mk "Stop" [("Stop", .fail .null (.str "Broken"))] "") := by
    refine .intro (fun name cause error hs => ?_) (fun name branches strays next hs => ?_)
    all_goals
      have hmem := Machine.mem_states_of_state? hs
      simp [Machine.states] at hmem
    obtain ⟨-, rfl, rfl⟩ := hmem
    intro error cause hreport
    cases hreport
    exact ⟨.inr ⟨_, rfl⟩, .inl rfl⟩
  refine .intro (fun name cause error hs => ?_) (fun name branches strays next hs b hb => ?_)
  · have hmem := Machine.mem_states_of_state? hs
    simp [Machine.states, quarrel] at hmem
  · have hmem := Machine.mem_states_of_state? hs
    simp only [Machine.states, quarrel, List.mem_singleton, Prod.mk.injEq, State.parallel.injEq] at hmem
    obtain ⟨-, rfl, -⟩ := hmem
    simp only [List.mem_cons, List.not_mem_nil, or_false] at hb
    rcases hb with rfl | rfl
    · exact hrest
    · exact hstop

/-- Both branches go on by turns, and the records are written while they do. -/
def quarrelling : Option (List Action × Engine × List Event) :=
  performNew ⟨0⟩ "q" quarrel (.dict []) (.int 60)
    [.move (.begin "q"), .move .write, .move (.chain "q" [] .enter), .move (.chain "q" [1] .begin),
      .move (.chain "q" [0] .begin), .move (.chain "q" [1] .enter), .move .write,
      .move (.chain "q" [0] .enter), .move .write, .move (.chain "q" [] .join), .move (.settle "q"),
      .move .write, .move .write, .move (.release "q")]
    (make ⟨[]⟩ (some ⟨.empty .usual, fun _ => false⟩) 0)

theorem logs_in_order_quarrelling :
    ∃ actions e events x, quarrelling = some (actions, e, events) ∧ e.execution? "q" = some x ∧
      x.phase.isDone = true ∧ InOrder "q" x events ∧ written "q" events = recorded "q" events ∧
      (recorded "q" events).length = 5 ∧
      e.file? "q" = latest none (stored "q" events) := by
  have hcomputed : quarrelling.any (fun run =>
      (run.2.1.execution? "q").any (fun x => x.phase.isDone) &&
        (recorded "q" run.2.2).length == 5) = true := by decide +kernel
  obtain ⟨⟨actions, e, events⟩, hsome, hrest⟩ := (Option.any_eq_true _ _).1 hcomputed
  obtain ⟨hany, hlength⟩ := Bool.and_eq_true_iff.1 hrest
  obtain ⟨x, hx, hdone⟩ := (Option.any_eq_true _ _).1 hany
  have hrun := Run.of_performNew rfl hsome
  have hstarts : StartsOnly Machine.FailsPlainly actions "q" := by
    intro now m input limit passed hmem
    rcases mem_of_performNew hsome hmem with heq | ⟨move, heq⟩
    · cases heq
      exact failsPlainly_quarrel
    · cases heq
  obtain ⟨horder, -, hfile, -⟩ := hrun.logs_in_order (not_closed_of_performNew hsome)
    (failsOnlyWith_of_failsPlainly rfl hstarts) hx
  exact ⟨actions, e, events, x, hsome, hx, hdone, horder, horder.complete hdone,
    eq_of_beq hlength, hfile⟩

end Engine

end ReminderFlow
