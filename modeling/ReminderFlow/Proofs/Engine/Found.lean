import ReminderFlow.Proofs.Document
import ReminderFlow.Proofs.Engine.Delivery
import ReminderFlow.Proofs.Record

namespace ReminderFlow

/-- Only a chain that ends with a document gives its outcome one, and then the execution has
succeeded. -/
theorem Outcome.document_of_ofResult? {deadline : Instant} {r : Except Failure Document} {o : Outcome}
    (told : ofResult? deadline r = some o) :
    (∃ doc, r = .ok doc ∧ o.document = some doc) ∨ (o.document = none ∧ o.status ≠ .succeeded) := by
  unfold ofResult? at told
  split at told
  · cases told
    exact .inl ⟨_, rfl, rfl⟩
  · unfold ofFault? at told
    split at told
    · cases told
      exact .inr ⟨rfl, Status.noConfusion⟩
    · cases told
      exact .inr ⟨rfl, Status.noConfusion⟩
    · obtain ⟨cause, -, rfl⟩ := Option.map_eq_some_iff.1 told
      exact .inr ⟨rfl, Status.noConfusion⟩
  · obtain ⟨report, -, rfl⟩ := Option.map_eq_some_iff.1 told
    exact .inr ⟨rfl, Status.noConfusion⟩

namespace Engine

def properContents : Chain.Contents := ⟨fun _ => True, Document.IsProper, fun _ => True⟩

theorem kept_properContents : properContents.Kept where
  branch := fun _ _ _ => trivial
  set := fun hdoc hset => hdoc.set hset
  list := fun _ h => Document.isProper_list h
  foreseen := fun _ _ => trivial

theorem Run.holdsProper {first e : Engine} {actions : List Action} {events : List Event} {id : String}
    (hrun : Run first actions e events) (hfirst : first.execution? id = none) {x : Execution}
    (hx : e.execution? id = some x) : Holds properContents x :=
  hrun.holds kept_properContents hfirst (fun _ _ _ _ _ _ => trivial)
    (fun _ _ => Document.isProper_ofDatum) (fun _ _ _ _ _ _ _ _ _ _ _ _ _ _ _ _ _ _ => trivial) x hx

theorem Holds.isProper_document {x : Execution} (h : Holds properContents x) {at_ : Instant}
    {outcome : Outcome} (hend : x.phase.end? = some (at_, outcome)) {doc : Document}
    (hdoc : outcome.document = some doc) : doc.IsProper := by
  rcases h.ending at_ outcome hend with ⟨r, told, hr⟩ | ⟨deadline, rfl⟩ | rfl
  · obtain ⟨result, rfl, hresult⟩ | ⟨hnone, -⟩ := Outcome.document_of_ofResult? told
    · cases hresult.symm.trans hdoc
      cases hr with
      | ended document failure => exact document doc rfl
    · cases hnone.symm.trans hdoc
  · cases hdoc
  · cases hdoc

theorem nodup_track {states : List (String × String)} (h : (Members.keys states).Nodup)
    (event : Chain.Event) : (Members.keys (event.track states)).Nodup := by
  cases event with
  | entered branch state type => exact Members.nodup_insert branch state h
  | left branch => exact Members.nodup_erase branch h
  | _ => exact h

theorem nodup_of_mem_snapshots {states snapshot : List (String × String)}
    (h : (Members.keys states).Nodup) {events : List Chain.Event}
    (hmem : snapshot ∈ snapshots states events) : (Members.keys snapshot).Nodup := by
  induction events generalizing states with
  | nil => cases hmem
  | cons event rest ih =>
    have hnext := nodup_track h event
    cases event with
    | entered branch state type =>
      rcases List.mem_cons.1 hmem with rfl | hmem
      · exact hnext
      · exact ih hnext hmem
    | _ => exact ih hnext hmem

theorem isProper_of_runningRecord {id : String} {x : Execution} {states : List (String × String)}
    {r : Record} (h : x.RunningRecord id states r) (hinput : x.input.IsProper)
    (hstates : (Members.keys states).Nodup) : r.IsProper := by
  refine ⟨?_, ?_, ?_⟩
  · rw [h.input]
    exact hinput
  · rw [h.output]
    exact .null
  · rw [h.currentStates]
    exact hstates

theorem isProper_of_lastRecord {id : String} {x : Execution} {at_ : Instant} {outcome : Outcome}
    {r : Record} (h : x.LastRecord id at_ outcome r) (hinput : x.input.IsProper)
    (hdocument : ∀ doc, outcome.document = some doc → doc.IsProper) : r.IsProper := by
  refine ⟨?_, ?_, ?_⟩
  · rw [h.input]
    exact hinput
  · rw [h.output]
    cases hdoc : outcome.document with
    | none => exact .null
    | some doc => exact hdocument doc hdoc
  · rw [h.currentStates]
    exact List.nodup_nil

/-- Every record that is handed over for an execution is proper. -/
theorem Logged.isProper {id : String} {x : Execution} {events : List Event} (h : Logged id x events)
    (hholds : Holds properContents x) {r : Record} (hr : r ∈ recorded id events) : r.IsProper := by
  obtain ⟨opening, entries, closing, hrecords, hopening, hentries, hclosing⟩ := h.records
  rw [hrecords] at hr
  rcases List.mem_cons.1 hr with rfl | hr
  · exact isProper_of_runningRecord hopening.runningRecord hholds.input List.nodup_nil
  rcases List.mem_append.1 hr with hr | hr
  · obtain ⟨states, hstates, hreports⟩ := exists_of_mem_right hentries hr
    have hnone : (Members.keys ([] : List (String × String))).Nodup := List.nodup_nil
    exact isProper_of_runningRecord hreports.runningRecord hholds.input
      (nodup_of_mem_snapshots hnone hstates)
  · unfold Closes at hclosing
    cases hend : x.phase.end? with
    | none =>
      rw [hend] at hclosing
      subst hclosing
      cases hr
    | some end_ =>
      obtain ⟨at_, outcome⟩ := end_
      rw [hend] at hclosing
      obtain ⟨now, rfl⟩ := hclosing
      rw [Option.mem_toList] at hr
      exact isProper_of_lastRecord (Execution.Reports.lastRecord ⟨now, hr⟩) hholds.input
        fun doc hdoc => hholds.isProper_document hend hdoc

/-- No write among the events has failed. -/
def AllWritten (events : List Event) : Prop := ∀ r fault, .written r (some fault) ∉ events

def Event.isFault : Event → Bool
  | .written _ fault => fault.isSome
  | _ => false

theorem allWritten_of_all {events : List Event}
    (h : events.all (fun event => !event.isFault) = true) : AllWritten events := by
  intro r fault hevent
  have hfault := List.all_eq_true.1 h _ hevent
  cases hfault

theorem AllWritten.stored {events : List Event} (h : AllWritten events) (id : String) :
    stored id events = written id events := by
  apply List.filterMap_congr
  intro event hevent
  cases event with
  | written r fault =>
    cases fault with
    | none => rfl
    | some fault => exact (h r fault hevent).elim
  | _ => rfl

/-- The log of an execution that has ended: records that tell that it runs, and then the last one if
there can be one. -/
theorem Logged.split {id : String} {x : Execution} {events : List Event} (h : Logged id x events)
    {at_ : Instant} {outcome : Outcome} (hend : x.phase.end? = some (at_, outcome)) :
    ∃ running closing, recorded id events = running ++ closing ∧ running ≠ [] ∧
      (∀ r ∈ running, ∃ states, x.RunningRecord id states r) ∧
      (outcome.IsPlain → ∃ r, closing = [r] ∧ x.LastRecord id at_ outcome r) ∧
      (¬outcome.IsPlain → closing = []) := by
  obtain ⟨opening, entries, closing, hrecords, hopening, hentries, hclosing⟩ := h.records
  rw [Closes, hend] at hclosing
  obtain ⟨now, hclosing⟩ := hclosing
  refine ⟨opening :: entries, closing, hrecords, List.cons_ne_nil _ _, fun r hr => ?_, fun hplain => ?_,
    fun hnot => ?_⟩
  · rcases List.mem_cons.1 hr with rfl | hr
    · exact ⟨[], hopening.runningRecord⟩
    · obtain ⟨states, -, hreports⟩ := exists_of_mem_right hentries hr
      exact ⟨states, hreports.runningRecord⟩
  · obtain ⟨r, hr⟩ := Execution.exists_reports id x now at_ hplain
    rw [hr] at hclosing
    exact ⟨r, hclosing, Execution.Reports.lastRecord ⟨now, hr⟩⟩
  · cases hlast : Record.last? id x.started x.deadline now x.input [] at_ outcome with
    | none =>
      rw [hlast] at hclosing
      exact hclosing
    | some r => exact absurd (Execution.isPlain_of_last? hlast) hnot

/-- The log of an execution that has ended with a plain outcome is closed by its last record. -/
theorem Logged.exists_last {id : String} {x : Execution} {events : List Event} (h : Logged id x events)
    {at_ : Instant} {outcome : Outcome} (hend : x.phase.end? = some (at_, outcome))
    (hplain : outcome.IsPlain) :
    ∃ r, (recorded id events).getLast? = some r ∧ x.LastRecord id at_ outcome r := by
  obtain ⟨running, closing, hrecords, -, -, hclosing, -⟩ := h.split hend
  obtain ⟨r, rfl, hr⟩ := hclosing hplain
  exact ⟨r, by rw [hrecords, List.getLast?_concat], hr⟩

/-- The log of one that has not ends as if it ran. -/
theorem Logged.running_of_not_isPlain {id : String} {x : Execution} {events : List Event}
    (h : Logged id x events) {at_ : Instant} {outcome : Outcome}
    (hend : x.phase.end? = some (at_, outcome)) (hnot : ¬outcome.IsPlain) :
    recorded id events ≠ [] ∧ ∀ r ∈ recorded id events, ∃ states, x.RunningRecord id states r := by
  obtain ⟨running, closing, hrecords, hne, hrunning, -, hclosing⟩ := h.split hend
  rw [hclosing hnot, List.append_nil] at hrecords
  rw [hrecords]
  exact ⟨hne, hrunning⟩

/-- The store has the record: it stands in the file of the execution, and it is found under the id
unless it is nested deeper than the codec of the store reads. -/
structure HasRecord (e : Engine) (id : String) (r : Record) : Prop where
  file : e.file? id = some (.ofText (Store.fileText r))
  found : ∃ a, e.archive = some a ∧ a.store.get id =
    .ok (if r.isReadable a.store.codec then some r else none)

theorem HasRecord.eq_of_get {e : Engine} {id : String} {r r' : Record} (h : e.HasRecord id r)
    {a : Archive} (ha : e.archive = some a) (hget : a.store.get id = .ok (some r')) : r' = r := by
  obtain ⟨a', ha', hfound⟩ := h.found
  obtain rfl := Option.some.inj (ha.symm.trans ha')
  rw [hget] at hfound
  split_ifs at hfound
  · exact Option.some.inj (Except.ok.inj hfound)
  · cases hfound

theorem of_mem_stored {id : String} {events : List Event} {r : Record} (h : r ∈ stored id events) :
    .written r none ∈ events ∧ r.executionId = id := by
  obtain ⟨event, hevent, heq⟩ := List.mem_filterMap.1 h
  cases event with
  | written r' fault =>
    cases fault with
    | none =>
      dsimp only at heq
      split_ifs at heq with hid
      cases heq
      exact ⟨hevent, hid⟩
    | some fault => cases heq
  | _ => cases heq

/-- The latest record of an execution that was written without a fault is what the store has. -/
theorem Run.hasRecord {first e : Engine} {actions : List Action} {events : List Event} {id : String}
    (hrun : Run first actions e events) {r : Record}
    (hlast : (stored id events).getLast? = some r) (hproper : r.IsProper) : e.HasRecord id r := by
  obtain ⟨hwritten, rfl⟩ := of_mem_stored (List.mem_of_getLast? hlast)
  have hfile : e.file? r.executionId = some (.ofText (Store.fileText r)) := by
    rw [hrun.files, latest, hlast]
  obtain ⟨a, ha, hstore⟩ := Option.bind_eq_some_iff.1 hfile
  have hstorable := (hrun.writes.isStorable ha).2 r hwritten
  exact ⟨hfile, a, ha, Store.get_of_file? hstore hstorable hproper⟩

end Engine

end ReminderFlow
