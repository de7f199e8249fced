import ReminderFlow.Proofs.Engine.Answers
import ReminderFlow.Proofs.Engine.Callbacks
import ReminderFlow.Proofs.Engine.Limit

namespace ReminderFlow

namespace Phase

def done? : Phase → Option Outcome
  | done _ outcome => some outcome
  | _ => none

theorem isDone_eq_isSome_done? (p : Phase) : p.isDone = p.done?.isSome := by
  cases p <;> rfl

end Phase

/-- The document of an execution that has succeeded, for whoever asks for it. -/
def Execution.result (id : String) (x : Execution) : Except Outcome.ResultError Document :=
  match x.outcome? with
  | some outcome => outcome.result
  | none => .error (.stillRunning id)

namespace Engine

def begun (events : List Event) : List String :=
  events.filterMap fun
    | .started id _ => some id
    | _ => none

/-- The executions that became done, the first one first. -/
def retired (events : List Event) : List String :=
  events.filterMap fun
    | .finished id _ => some id
    | _ => none

/-- The execution that is found by its id, if it is live or still remembered. -/
def handle (e : Engine) (id : String) : Except String Execution :=
  match e.knows id, e.execution? id with
  | true, some x => .ok x
  | _, _ => .error (unknownMessage id)

/-- Both tables, and how much the second one may hold. -/
def tables (e : Engine) : List String × List String × Nat := (e.live, e.finished, e.retention)

/-- Whether there is an execution, and its outcome once it is done. -/
def standing? (e : Engine) (id : String) : Option (Option Outcome) :=
  (e.execution? id).map fun x => x.phase.done?

theorem begun_append (before after : List Event) :
    begun (before ++ after) = begun before ++ begun after :=
  List.filterMap_append

theorem retired_append (before after : List Event) :
    retired (before ++ after) = retired before ++ retired after :=
  List.filterMap_append

theorem mem_retired {events : List Event} {id : String} :
    id ∈ retired events ↔ ∃ outcome, .finished id outcome ∈ events := by
  rw [retired, List.mem_filterMap]
  constructor
  · rintro ⟨event, hevent, hid⟩
    cases event with
    | finished other outcome =>
      obtain rfl := Option.some.inj hid
      exact ⟨outcome, hevent⟩
    | _ => cases hid
  · rintro ⟨outcome, hevent⟩
    exact ⟨_, hevent, rfl⟩

def Unlisted (events : List Event) : Prop :=
  ∀ event ∈ events, match event with
    | .started .. => False
    | .finished .. => False
    | _ => True

theorem unlisted_nil : Unlisted [] := by
  intro event h
  cases h

theorem Unlisted.append {before after : List Event} (hb : Unlisted before) (ha : Unlisted after) :
    Unlisted (before ++ after) := by
  intro event hevent
  rcases List.mem_append.1 hevent with hevent | hevent
  · exact hb event hevent
  · exact ha event hevent

theorem Unlisted.begun {events : List Event} (h : Unlisted events) : begun events = [] := by
  apply List.filterMap_eq_nil_iff.2
  intro event hevent
  cases event with
  | started id deadline => exact (h _ hevent).elim
  | _ => rfl

theorem Unlisted.retired {events : List Event} (h : Unlisted events) : retired events = [] := by
  apply List.filterMap_eq_nil_iff.2
  intro event hevent
  cases event with
  | finished id outcome => exact (h _ hevent).elim
  | _ => rfl

theorem unlisted_chain (id : String) (events : List Chain.Event) :
    Unlisted (events.map (.chain id)) := by
  intro event hevent
  obtain ⟨inner, -, rfl⟩ := List.mem_map.1 hevent
  trivial

/-- A record on its way changes no table. -/
theorem persist_tables (e : Engine) (r : Option Record) :
    (e.persist r).1.tables = e.tables ∧ Unlisted (e.persist r).2 := by
  obtain ⟨-, h⟩ | ⟨record, -, -, h⟩ | ⟨record, -, -, -, h⟩ := e.persist_cases r
  · rw [h]
    exact ⟨rfl, unlisted_nil⟩
  · rw [h]
    refine ⟨rfl, fun event hevent => ?_⟩
    rw [List.mem_singleton.1 hevent]
    trivial
  · rw [h]
    refine ⟨rfl, fun event hevent => ?_⟩
    rw [List.mem_singleton.1 hevent]
    trivial

theorem follow_tables (e : Engine) (now : Instant) (id : String) (x : Execution)
    (events : List Chain.Event) :
    (e.follow now id x events).1.tables = e.tables ∧ Unlisted (e.follow now id x events).2.2 := by
  induction events generalizing e x with
  | nil => exact ⟨rfl, unlisted_nil⟩
  | cons event rest ih =>
    have hone : Unlisted [.chain id event] := unlisted_chain id [event]
    cases event with
    | entered branch state type =>
      let y : Execution := { x with states := (Chain.Event.entered branch state type).track x.states }
      obtain ⟨hpersist, hrecords⟩ := e.persist_tables (some (y.record id now))
      obtain ⟨hrest, hmore⟩ := ih (e.persist (some (y.record id now))).1 y
      exact ⟨hrest.trans hpersist, hrecords.append (hone.append hmore)⟩
    | _ =>
      obtain ⟨hrest, hmore⟩ := ih e _
      exact ⟨hrest, hone.append hmore⟩

theorem settle_tables (e : Engine) (now : Instant) (id : String) (x : Execution) (outcome : Outcome)
    (left : List Chain.Event) (crash : Option Fault) :
    (e.settle now id x outcome left crash).1.tables = e.tables ∧
      Unlisted (e.settle now id x outcome left crash).2 := by
  let y : Execution := { x with states := [], phase := .finishing now outcome }
  obtain ⟨htables, hrecords⟩ := (e.put id y).persist_tables (y.record? id now)
  have hone : Unlisted [.settled id outcome crash] := by
    intro event hevent
    rw [List.mem_singleton.1 hevent]
    trivial
  exact ⟨htables, (unlisted_chain id left).append (hone.append hrecords)⟩

/-- Which executions are live and which remembered, told by the starts and ends in the events. -/
structure Tables (k : Nat) (e : Engine) (events : List Event) : Prop where
  retention : e.retention = k
  live : e.live = (begun events).filter (· ∉ retired events)
  finished : e.finished = (retired events).drop ((retired events).length - k)
  nodup_begun : (begun events).Nodup
  nodup_retired : (retired events).Nodup
  begun : ∀ id, id ∈ begun events ↔ (e.standing? id).isSome = true
  done : ∀ id outcome, .finished id outcome ∈ events ↔ e.standing? id = some (some outcome)

theorem tables_make (registry : Registry) (archive : Option Archive) (retention : Nat) :
    Tables retention (make registry archive retention) [] := by
  refine ⟨rfl, rfl, List.drop_nil.symm, List.nodup_nil, List.nodup_nil, fun id => ?_,
    fun id outcome => ?_⟩
  · simp [begun, standing?, execution?, make]
  · simp [standing?, execution?, make]

theorem standing?_put_self (e : Engine) (id : String) (x : Execution) :
    (e.put id x).standing? id = some x.phase.done? := by
  rw [standing?, execution?_put_self, Option.map_some]

theorem standing?_put_of_ne (e : Engine) {id other : String} (h : other ≠ id) (x : Execution) :
    (e.put id x).standing? other = e.standing? other := by
  rw [standing?, execution?_put_of_ne _ h, standing?]

theorem standing?_of_put {e after : Engine} {id : String} {x y : Execution}
    (hx : e.execution? id = some x) (hsame : y.phase.done? = x.phase.done?)
    (ha : ∀ other, after.execution? other = (e.put id y).execution? other) (other : String) :
    after.standing? other = e.standing? other := by
  have hput : after.standing? other = (e.put id y).standing? other := by
    rw [standing?, ha, standing?]
  rw [hput]
  by_cases hne : other = id
  · subst hne
    rw [standing?_put_self, standing?, hx, hsame]
    rfl
  · exact e.standing?_put_of_ne hne y

section Steps

variable {retention : Nat} {e after : Engine} {events more : List Event} {id : String}

theorem Tables.steady (h : Tables retention e events) (htables : after.tables = e.tables)
    (hunlisted : Unlisted more) (hstanding : ∀ id, after.standing? id = e.standing? id) :
    Tables retention after (events ++ more) := by
  obtain ⟨hlive, hrest⟩ := Prod.mk.inj htables
  obtain ⟨hfinished, hretention⟩ := Prod.mk.inj hrest
  have hbegun : Engine.begun (events ++ more) = Engine.begun events := by
    rw [begun_append, hunlisted.begun, List.append_nil]
  have hretired : retired (events ++ more) = retired events := by
    rw [retired_append, hunlisted.retired, List.append_nil]
  refine ⟨hretention.trans h.retention, ?_, ?_, ?_, ?_, fun id => ?_, fun id outcome => ?_⟩
  · rw [hlive, hbegun, hretired, h.live]
  · rw [hfinished, hretired, h.finished]
  · rw [hbegun]
    exact h.nodup_begun
  · rw [hretired]
    exact h.nodup_retired
  · rw [hbegun, hstanding, h.begun]
  · rw [hstanding, ← h.done, List.mem_append]
    exact or_iff_left fun hmem => hunlisted _ hmem

/-- What a start does to the tables: the execution is live from then on. -/
theorem Tables.register (h : Tables retention e events) (fresh : e.execution? id = none)
    {now : Instant} {m : Machine} {doc : Document} {deadline : Instant}
    (done : e.register now id m doc deadline = (after, more)) :
    Tables retention after (events ++ more) := by
  obtain ⟨rfl, rfl⟩ := persist_of_register done
  let x : Execution := ⟨m, doc, now, deadline, [], .scheduled, []⟩
  let d : Engine := { e.put id x with live := e.live ++ [id] }
  let first : Option Record := some (x.record id now)
  obtain ⟨htables, hrecords⟩ := d.persist_tables first
  obtain ⟨hlive, hrest⟩ := Prod.mk.inj htables
  obtain ⟨hfinished, hretention⟩ := Prod.mk.inj hrest
  have hstanding (other : String) :
      (d.persist first).1.standing? other = (e.put id x).standing? other := by
    rw [standing?, execution?, (d.persist_spec first).1, standing?]
    rfl
  have hnew : e.standing? id = none := by rw [standing?, fresh, Option.map_none]
  have hbegun : Engine.begun (events ++ ((d.persist first).2 ++ [.started id deadline])) =
      Engine.begun events ++ [id] := by
    rw [begun_append, begun_append, hrecords.begun]
    rfl
  have hretired : retired (events ++ ((d.persist first).2 ++ [.started id deadline])) =
      retired events := by
    rw [retired_append, retired_append, hrecords.retired]
    exact List.append_nil _
  have hunbegun : id ∉ Engine.begun events := by
    rw [h.begun, hnew]
    exact Bool.false_ne_true
  have hunretired : id ∉ retired events := by
    rw [mem_retired]
    rintro ⟨outcome, hmem⟩
    rw [h.done, hnew] at hmem
    cases hmem
  refine ⟨hretention.trans h.retention, ?_, ?_, ?_, ?_, fun other => ?_, fun other outcome => ?_⟩
  · rw [hbegun, hretired, List.filter_append, ← h.live,
      List.filter_cons_of_pos (by simpa using hunretired)]
    exact hlive
  · rw [hretired]
    exact hfinished.trans h.finished
  · rw [hbegun]
    refine List.nodup_append.2 ⟨h.nodup_begun, List.nodup_singleton id, ?_⟩
    rintro other hother _ hid rfl
    exact hunbegun (List.mem_singleton.1 hid ▸ hother)
  · rw [hretired]
    exact h.nodup_retired
  · rw [hbegun, List.mem_append, List.mem_singleton, hstanding, h.begun]
    by_cases hne : other = id
    · subst hne
      simp [standing?_put_self]
    · simp [e.standing?_put_of_ne hne, hne]
  · have hmem : (Event.finished other outcome ∈
        events ++ ((d.persist first).2 ++ [.started id deadline])) ↔
          Event.finished other outcome ∈ events := by
      rw [List.mem_append, List.mem_append]
      refine or_iff_left fun hmem => ?_
      rcases hmem with hmem | hmem
      · exact hrecords _ hmem
      · cases List.mem_singleton.1 hmem
    rw [hmem, hstanding, h.done]
    by_cases hne : other = id
    · subst hne
      simp [standing?_put_self, hnew, x, Phase.done?]
    · rw [e.standing?_put_of_ne hne]

/-- One more is remembered, and the oldest forgotten if there are too many. -/
theorem remember_drop (k : Nat) (all : List String) (id : String) :
    remember k (all.drop (all.length - k)) id = (all ++ [id]).drop ((all ++ [id]).length - k) := by
  have hdrop : all.drop (all.length - k) ++ [id] = (all ++ [id]).drop (all.length - k) :=
    (List.drop_append_of_le_length (Nat.sub_le _ _)).symm
  simp only [remember, hdrop, List.drop_drop, List.length_drop, List.length_append,
    List.length_singleton]
  congr 1
  omega

/-- What is to be seen when an execution is done. -/
theorem release_listed (e : Engine) (id : String) (x : Execution) (at_ : Instant) (outcome : Outcome) :
    begun (e.release id x at_ outcome).2 = [] ∧ retired (e.release id x at_ outcome).2 = [id] ∧
      ∀ other told, .finished other told ∈ (e.release id x at_ outcome).2 ↔
        other = id ∧ told = outcome := by
  have hnotices : Unlisted (x.callbacks.flatMap (notify id outcome)) := by
    intro event hevent
    obtain ⟨c, -, hevent⟩ := List.mem_flatMap.1 hevent
    rcases List.mem_cons.1 hevent with rfl | hevent
    · trivial
    · obtain ⟨report, -, rfl⟩ := List.mem_map.1 hevent
      trivial
  refine ⟨hnotices.begun, ?_, fun other told => ?_⟩
  · exact congrArg (id :: ·) hnotices.retired
  · rw [release, List.mem_cons, Event.finished.injEq]
    exact or_iff_left fun hmem => hnotices _ hmem

/-- The execution moves from one table to the other. -/
theorem Tables.release (h : Tables retention e events) {x : Execution} {at_ : Instant}
    {outcome : Outcome} (hx : e.execution? id = some x) (hphase : x.phase = .finishing at_ outcome) :
    Tables retention (e.release id x at_ outcome).1 (events ++ (e.release id x at_ outcome).2) := by
  obtain ⟨hbegun, hretired, hfinished⟩ := e.release_listed id x at_ outcome
  have hundone : e.standing? id = some none := by
    rw [standing?, hx, Option.map_some, hphase]
    rfl
  have hself : (e.release id x at_ outcome).1.standing? id = some (some outcome) :=
    e.standing?_put_self id _
  have hother {other : String} (hne : other ≠ id) :
      (e.release id x at_ outcome).1.standing? other = e.standing? other :=
    e.standing?_put_of_ne hne _
  have hunretired : id ∉ retired events := by
    rw [mem_retired]
    rintro ⟨told, hmem⟩
    rw [h.done, hundone] at hmem
    cases hmem
  refine ⟨h.retention, ?_, ?_, ?_, ?_, fun other => ?_, fun other told => ?_⟩
  · rw [begun_append, retired_append, hbegun, hretired, List.append_nil]
    change e.live.filter _ = _
    rw [h.live, List.filter_filter]
    refine List.filter_congr fun other _ => ?_
    simp [and_comm]
  · rw [retired_append, hretired]
    change remember e.retention e.finished id = _
    rw [h.retention, h.finished, remember_drop]
  · rw [begun_append, hbegun, List.append_nil]
    exact h.nodup_begun
  · rw [retired_append, hretired]
    refine List.nodup_append.2 ⟨h.nodup_retired, List.nodup_singleton id, ?_⟩
    rintro other hmem _ hid rfl
    exact hunretired (List.mem_singleton.1 hid ▸ hmem)
  · rw [begun_append, hbegun, List.append_nil, h.begun]
    by_cases hne : other = id
    · subst hne
      rw [hself, hundone]
      rfl
    · rw [hother hne]
  · rw [List.mem_append, hfinished, h.done]
    by_cases hne : other = id
    · subst hne
      rw [hself, hundone]
      simp [eq_comm]
    · rw [hother hne]
      simp [hne]

/-- An execution that gets its outcome is still live. -/
theorem Tables.settle (h : Tables retention e events) {x : Execution} {c : Chain}
    (hx : e.execution? id = some x) (hphase : x.phase = .running c) (now : Instant)
    (outcome : Outcome) (left : List Chain.Event) (crash : Option Fault) :
    Tables retention (e.settle now id x outcome left crash).1
      (events ++ (e.settle now id x outcome left crash).2) := by
  obtain ⟨htables, hunlisted⟩ := e.settle_tables now id x outcome left crash
  exact h.steady htables hunlisted
    (standing?_of_put hx (by rw [hphase]; rfl) (e.execution?_settle now id x outcome left crash))

theorem Moves.tables {now : Instant} {move : Move} (hmove : Moves e now move after more)
    (h : Tables retention e events) : Tables retention after (events ++ more) := by
  cases hmove with
  | begin found phase =>
    exact h.steady rfl unlisted_nil (standing?_of_put found (by rw [phase]; rfl) fun _ => rfl)
  | @chain id _ _ x y c next seen d _ found phase made followed =>
    obtain ⟨htables, hunlisted⟩ := e.follow_tables now id { x with phase := .running next } seen
    obtain ⟨-, -, ⟨states, hy⟩, -⟩ := e.follow_spec now id { x with phase := .running next } seen
    have hexecution := e.execution?_follow now id { x with phase := .running next } seen
    rw [followed] at htables hunlisted hy hexecution
    refine h.steady htables hunlisted (standing?_of_put (y := y) found ?_ fun other => ?_)
    · rw [show y = { x with phase := .running next, states := states } from hy, phase]
      rfl
    · by_cases hne : other = id
      · subst hne
        rw [execution?_put_self, execution?_put_self]
      · rw [execution?_put_of_ne _ hne, execution?_put_of_ne _ hne, hexecution]
  | @settle id x r _ outcome _ found phase told settled =>
    have hsettled := h.settle found phase now outcome [] (crash? r)
    rwa [settled] at hsettled
  | @expire id x c _ _ found phase unended suspended settled =>
    have hsettled := h.settle found phase now (.timedOut x.deadline) (c.abandon "") none
    rwa [settled] at hsettled
  | @cancel id x c _ _ found phase closed unended suspended settled =>
    have hsettled := h.settle found phase now .cancelled (c.abandon "") none
    rwa [settled] at hsettled
  | withdraw found phase closed unwritten =>
    refine h.steady rfl (fun event hevent => ?_) fun _ => rfl
    obtain ⟨r, -, rfl⟩ := List.mem_map.1 hevent
    trivial
  | write first archive =>
    refine h.steady rfl (fun event hevent => ?_) fun _ => rfl
    rw [List.mem_singleton.1 hevent]
    trivial
  | release found phase gone => exact h.release found phase

theorem Happens.tables {a : Action} (hhappens : Happens e a after more)
    (h : Tables retention e events) :
    Tables retention after (events ++ more) := by
  cases hhappens with
  | started fresh prepared done => exact h.register fresh done
  | refused done => rwa [List.append_nil]
  | moved honest done => exact (moves_of_step done).tables h
  | @called id callback _ _ _ done =>
    obtain ⟨x, hx, ⟨rfl, outcome, -, rfl⟩ | ⟨rfl, -, rfl⟩⟩ := callback_of_addCallback done
    · refine h.steady rfl (fun event hevent => ?_) fun _ => rfl
      rw [List.mem_singleton.1 hevent]
      trivial
    · exact h.steady rfl unlisted_nil
        (standing?_of_put (y := { x with callbacks := x.callbacks ++ [callback] }) hx rfl fun _ => rfl)
  | closed =>
    rw [List.append_nil]
    exact ⟨h.retention, h.live, h.finished, h.nodup_begun, h.nodup_retired, h.begun, h.done⟩
  | stopped =>
    rw [List.append_nil]
    exact ⟨h.retention, h.live, h.finished, h.nodup_begun, h.nodup_retired, h.begun, h.done⟩

end Steps

theorem Run.tables {registry : Registry} {archive : Option Archive} {retention : Nat}
    {actions : List Action} {e : Engine} {events : List Event}
    (hrun : Run (make registry archive retention) actions e events) : Tables retention e events := by
  induction hrun with
  | rest => exact tables_make registry archive retention
  | next before happens ih => exact happens.tables ih

section Found

variable {k : Nat} {e : Engine} {events : List Event} {id : String}

theorem Tables.mem_live (h : Tables k e events) : id ∈ e.live ↔ e.standing? id = some none := by
  rw [h.live, List.mem_filter, h.begun, decide_eq_true_eq, mem_retired]
  cases hstanding : e.standing? id with
  | none => simp
  | some done? =>
    cases done? with
    | none => simp [h.done, hstanding]
    | some outcome => simp [h.done, hstanding]

theorem Tables.mem_retired (h : Tables k e events) :
    id ∈ retired events ↔ ∃ outcome, e.standing? id = some (some outcome) := by
  simp only [Engine.mem_retired, h.done]

theorem Tables.retired_of_mem_finished (h : Tables k e events) (hid : id ∈ e.finished) :
    id ∈ retired events :=
  List.mem_of_mem_drop (h.finished ▸ hid)

/-- No execution is in both tables. -/
theorem Tables.disjoint (h : Tables k e events) : e.live.Disjoint e.finished := by
  intro id hlive hfinished
  obtain ⟨outcome, hdone⟩ := h.mem_retired.1 (h.retired_of_mem_finished hfinished)
  rw [h.mem_live.1 hlive] at hdone
  cases hdone

theorem Tables.length_finished (h : Tables k e events) :
    e.finished.length = min (retired events).length k := by
  rw [h.finished, List.length_drop]
  omega

theorem exists_of_standing? {done? : Option Outcome} (h : e.standing? id = some done?) :
    ∃ x, e.execution? id = some x ∧ x.phase.done? = done? :=
  Option.map_eq_some_iff.1 h

theorem handle_of_knows {x : Execution} (hknows : e.knows id = true)
    (hx : e.execution? id = some x) : e.handle id = .ok x := by
  rw [handle, hknows, hx]

theorem knows_iff : e.knows id = true ↔ id ∈ e.live ∨ id ∈ e.finished := by
  simp [knows]

theorem handle_of_not_knows (h : e.knows id = false) : e.handle id = .error (unknownMessage id) := by
  rw [handle, h]

/-- What the tables have, they have an execution for. -/
theorem Tables.exists_of_knows (h : Tables k e events) (hid : id ∈ e.live ∨ id ∈ e.finished) :
    ∃ x, e.execution? id = some x := by
  rcases hid with hlive | hfinished
  · obtain ⟨x, hx, -⟩ := exists_of_standing? (h.mem_live.1 hlive)
    exact ⟨x, hx⟩
  · obtain ⟨outcome, hdone⟩ := h.mem_retired.1 (h.retired_of_mem_finished hfinished)
    obtain ⟨x, hx, -⟩ := exists_of_standing? hdone
    exact ⟨x, hx⟩

/-- An execution that was started is in one of the tables, or among the first that were done and too
many others have been done since. -/
theorem Tables.cases (h : Tables k e events) (hid : id ∈ Engine.begun events) :
    id ∈ e.live ∨ id ∈ e.finished ∨ id ∈ (retired events).take ((retired events).length - k) := by
  by_cases hretired : id ∈ retired events
  · rw [← List.take_append_drop ((retired events).length - k) (retired events), List.mem_append,
      ← h.finished] at hretired
    exact .inr hretired.symm
  · refine .inl ?_
    rw [h.live, List.mem_filter]
    exact ⟨hid, by simpa using hretired⟩

end Found

/-- A limit that is above zero and ends within the calendar. -/
def Reaches (now : Instant) (limit : Datum) : Prop :=
  ∃ seconds micros deadline, limit.limit? = .ok seconds ∧ seconds.micros? = .ok micros ∧
    now.after? micros = some deadline

/-- A start, part by part, on an engine that stays what it has become by then when an error is
raised. -/
def startInPlace (now : Instant) (id : String) (machine : Option Machine) (input limit : Datum) :
    ExceptT StartError (StateM Engine) (List Event) := do
  if (← get).closed then throw .closed
  let (m, doc, deadline) ← MonadExcept.ofExcept (prepare now machine input limit)
  let x : Execution := ⟨m, doc, now, deadline, [], .scheduled, []⟩
  modify fun e => e.put id x
  modify fun e => { e with live := e.live ++ [id] }
  let records ← modifyGet fun e => (e.persist (some (x.record id now))).swap
  return records ++ [.started id deadline]

/-- What a start gives, and the engine that it leaves behind. -/
def attempt (e : Engine) (now : Instant) (id : String) (machine : Option Machine)
    (input limit : Datum) : Except StartError (List Event) × Engine :=
  ((startInPlace now id machine input limit).run.run e).run

theorem attempt_eq (e : Engine) (now : Instant) (id : String) (machine : Option Machine)
    (input limit : Datum) :
    e.attempt now id machine input limit =
      match e.start now id machine input limit with
      | .ok (after, events) => (.ok events, after)
      | .error fault => (.error fault, e) := by
  rw [start, attempt, startInPlace]
  obtain ⟨registry, retention, archive, executions, live, finished, writing, closed, shut⟩ := e
  cases closed with
  | true => rfl
  | false =>
    cases prepare now machine input limit with
    | error fault => rfl
    | ok p => rfl

theorem mapError_eq_ok_iff {α ε η : Type} {x : Except ε α} {f : ε → η} {a : α} :
    x.mapError f = .ok a ↔ x = .ok a := by
  cases x <;> simp [Except.mapError]

theorem prepare_eq_ok_iff {now : Instant} {machine : Option Machine} {input limit : Datum} :
    (∃ p, prepare now machine input limit = .ok p) ↔
      machine ≠ none ∧ Reaches now limit ∧ ∃ doc, Document.ofDatum input = .ok doc := by
  cases machine with
  | none => simp [prepare]
  | some m =>
    simp only [prepare, bind_eq_ok_iff, mapError_eq_ok_iff]
    constructor
    · rintro ⟨p, seconds, hseconds, doc, hdoc, micros, hmicros, h⟩
      cases hafter : now.after? micros with
      | none =>
        rw [hafter] at h
        cases h
      | some deadline =>
        exact ⟨Option.some_ne_none m, ⟨seconds, micros, deadline, hseconds, hmicros, hafter⟩, doc, hdoc⟩
    · rintro ⟨-, ⟨seconds, micros, deadline, hseconds, hmicros, hafter⟩, doc, hdoc⟩
      exact ⟨(m, doc, deadline), seconds, hseconds, doc, hdoc, micros, hmicros, by
        rw [hafter]
        rfl⟩

/-- A start is refused: the engine is closed, there is no machine or no deadline, or the input is no
document. -/
def Refuses (e : Engine) (now : Instant) (machine : Option Machine) (input limit : Datum) : Prop :=
  e.closed = true ∨ machine = none ∨ ¬Reaches now limit ∨ ∀ doc, Document.ofDatum input ≠ .ok doc

/-- A start is refused before anything is done to the engine, and else the execution is live. -/
theorem attempt_cases (e : Engine) (now : Instant) (id : String) (machine : Option Machine)
    (input limit : Datum) :
    (e.Refuses now machine input limit ∧
        ∃ fault, e.attempt now id machine input limit = (.error fault, e)) ∨
      (¬e.Refuses now machine input limit ∧
        ∃ events after, e.attempt now id machine input limit = (.ok events, after) ∧
          after.live = e.live ++ [id] ∧ after.finished = e.finished) := by
  rw [attempt_eq, start, Refuses]
  cases hclosed : e.closed with
  | true => exact .inl ⟨.inl rfl, .closed, rfl⟩
  | false =>
    cases hprepare : prepare now machine input limit with
    | error fault =>
      refine .inl ⟨.inr ?_, fault, rfl⟩
      by_contra hnot
      push Not at hnot
      obtain ⟨p, hp⟩ := prepare_eq_ok_iff.2 hnot
      rw [hprepare] at hp
      cases hp
    | ok p =>
      obtain ⟨hmachine, hreaches, doc, hdoc⟩ := prepare_eq_ok_iff.1 ⟨p, hprepare⟩
      let x : Execution := ⟨p.1, p.2.1, now, p.2.2, [], .scheduled, []⟩
      obtain ⟨htables, -⟩ :=
        { e.put id x with live := e.live ++ [id] : Engine }.persist_tables (some (x.record id now))
      obtain ⟨hlive, hrest⟩ := Prod.mk.inj htables
      refine .inr ⟨?_, _, _, rfl, hlive, (Prod.mk.inj hrest).1⟩
      rintro (hc | hnone | hnot | hnot)
      · cases hc
      · exact hmachine hnone
      · exact hnot hreaches
      · exact hnot doc hdoc

/-- A handle goes on to answer when its execution is done, remembered or not. -/
theorem Run.answers {registry : Registry} {archive : Option Archive} {retention : Nat}
    {actions : List Action} {e : Engine} {events : List Event}
    (hrun : Run (make registry archive retention) actions e events) {id : String} {o : Outcome}
    (hfinished : .finished id o ∈ events) :
    ∃ x, e.execution? id = some x ∧ x.Settled o ∧ x.result id = o.result ∧
      (o.status = .succeeded → ∃ doc, x.result id = .ok doc) := by
  have hnew : (make registry archive retention).execution? id = none := rfl
  obtain ⟨x, hx, hdone⟩ := exists_of_standing? ((hrun.tables.done id o).1 hfinished)
  obtain ⟨at_, hphase⟩ : ∃ at_, x.phase = .done at_ o := by
    cases hphase : x.phase with
    | done at_ outcome =>
      rw [hphase] at hdone
      exact ⟨at_, by rw [Option.some.inj hdone]⟩
    | _ =>
      rw [hphase] at hdone
      cases hdone
  have hend : x.phase.end? = some (at_, o) := by
    rw [hphase]
    rfl
  have houtcome := Execution.outcome?_of_end hend
  have hresult : x.result id = o.result := by rw [Execution.result, houtcome]
  refine ⟨x, hx, hrun.settled hnew hx houtcome, hresult, fun hstatus => ?_⟩
  obtain ⟨doc, hdoc⟩ :=
    Option.isSome_iff_exists.1 ((hrun.holdsProper hnew hx).isSome_document hend hstatus)
  exact ⟨doc, by rw [hresult, Outcome.result, hstatus, hdoc]⟩

/-- At any point of a run, the live executions are those that were started and are not done, and
those that are remembered are the last that were done, in their order and as many as may be. Exactly
these are found by their ids; nothing that was started is missing unless it has been forgotten, and
what it came to can be told even then. A start that is refused changes nothing. -/
theorem Run.finds_live_and_remembered {registry : Registry} {archive : Option Archive}
    {retention : Nat} {actions : List Action} {e : Engine} {events : List Event}
    (hrun : Run (make registry archive retention) actions e events) :
    (e.live = (begun events).filter (· ∉ retired events) ∧ (begun events).Nodup ∧
      e.finished = (retired events).drop ((retired events).length - retention) ∧
      (retired events).Nodup ∧ e.finished.length = min (retired events).length retention ∧
      e.live.Disjoint e.finished) ∧
    (∀ id, (id ∈ e.live ∨ id ∈ e.finished → ∃ x, e.execution? id = some x ∧ e.handle id = .ok x) ∧
      (¬(id ∈ e.live ∨ id ∈ e.finished) → e.handle id = .error (unknownMessage id))) ∧
    (∀ id ∈ begun events, id ∈ e.live ∨ id ∈ e.finished ∨
      id ∈ (retired events).take ((retired events).length - retention)) ∧
    (∀ id x, e.execution? id = some x → x.phase.isDone = false → id ∈ e.live) ∧
    (∀ id o, .finished id o ∈ events → ∃ x, e.execution? id = some x ∧ x.Settled o ∧
      x.result id = o.result ∧ (o.status = .succeeded → ∃ doc, x.result id = .ok doc)) ∧
    ∀ now id machine input limit,
      (e.Refuses now machine input limit ∧
          ∃ fault, e.attempt now id machine input limit = (.error fault, e)) ∨
        (¬e.Refuses now machine input limit ∧
          ∃ events after, e.attempt now id machine input limit = (.ok events, after) ∧
            after.live = e.live ++ [id] ∧ after.finished = e.finished) := by
  have htables := hrun.tables
  refine ⟨⟨htables.live, htables.nodup_begun, htables.finished, htables.nodup_retired,
    htables.length_finished, htables.disjoint⟩, fun id => ⟨fun hid => ?_, fun hid => ?_⟩,
    fun id hid => htables.cases hid, fun id x hx hundone => ?_, fun id o => hrun.answers,
    e.attempt_cases⟩
  · obtain ⟨x, hx⟩ := htables.exists_of_knows hid
    exact ⟨x, hx, handle_of_knows (knows_iff.2 hid) hx⟩
  · exact handle_of_not_knows (Bool.eq_false_iff.2 fun hknows => hid (knows_iff.1 hknows))
  · rw [htables.mem_live, standing?, hx, Option.map_some]
    rw [Phase.isDone_eq_isSome_done?, Option.isSome_eq_false_iff, Option.isNone_iff_eq_none] at hundone
    rw [hundone]

/-- A run goes on with one more start, of an execution that is not there yet. -/
def startAlso (now : Instant) (id : String) (m : Machine) (input limit : Datum)
    (run : List Action × Engine × List Event) : Option (List Action × Engine × List Event) :=
  match run.2.1.execution? id, run.2.1.start now id (some m) input limit with
  | some _, _ => none
  | none, .error _ => some (run.1 ++ [.start now id (some m) input limit false], run.2.1, run.2.2)
  | none, .ok (e, events) =>
    some (run.1 ++ [.start now id (some m) input limit false], e, run.2.2 ++ events)

theorem Run.of_startAlso {first : Engine} {run next : List Action × Engine × List Event}
    {now : Instant} {id : String} {m : Machine} {input limit : Datum}
    (hrun : Run first run.1 run.2.1 run.2.2) (h : startAlso now id m input limit run = some next) :
    Run first next.1 next.2.1 next.2.2 := by
  unfold startAlso at h
  split at h
  case h_1 => cases h
  case h_2 fresh refused =>
    cases h
    have hrefused : Happens run.2.1 (.start now id (some m) input limit false) run.2.1 [] :=
      .refused refused
    have hnext := hrun.next hrefused
    rwa [List.append_nil] at hnext
  case h_3 fresh started =>
    cases h
    obtain ⟨hopen, m', doc, deadline, hprepare, hregister⟩ := start_eq started
    exact hrun.next (.started fresh hprepare hregister (.inr hopen))

def repose : Machine := .mk "Rest" [("Rest", .succeed)] ""

/-- Three executions on an engine that remembers one. The second one is done first, then the first
one; the third one has ended, but its last record is not yet written. A fourth start is refused. -/
def passing : Option (List Action × Engine × List Event) := do
  let run ← performNew ⟨0⟩ "a" repose (.dict []) (.int 60) []
    (make ⟨[]⟩ (some ⟨.empty .usual, fun _ => false⟩) 1)
  let run ← startAlso ⟨1⟩ "b" repose (.dict []) (.int 60) run
  let run ← startAlso ⟨2⟩ "c" repose (.dict []) (.int 60) run
  let run ← goOn ⟨3⟩ ([.move (.begin "b"), .move (.chain "b" [] .enter), .move (.settle "b"),
    .move (.begin "a"), .move (.chain "a" [] .enter), .move (.settle "a")] ++
      List.replicate 7 (.move .write) ++ [.move (.release "b"), .move (.release "a")]) run
  let run ← goOn ⟨4⟩ [.move (.begin "c"), .move (.chain "c" [] .enter), .move (.settle "c")] run
  startAlso ⟨5⟩ "d" repose (.dict []) (.int 0) run

theorem run_passing {actions : List Action} {e : Engine} {events : List Event}
    (h : passing = some (actions, e, events)) :
    Run (make ⟨[]⟩ (some ⟨.empty .usual, fun _ => false⟩) 1) actions e events := by
  unfold passing at h
  obtain ⟨first, hfirst, h⟩ := Option.bind_eq_some_iff.1 h
  obtain ⟨second, hsecond, h⟩ := Option.bind_eq_some_iff.1 h
  obtain ⟨third, hthird, h⟩ := Option.bind_eq_some_iff.1 h
  obtain ⟨fourth, hfourth, h⟩ := Option.bind_eq_some_iff.1 h
  obtain ⟨fifth, hfifth, h⟩ := Option.bind_eq_some_iff.1 h
  have hfresh : (make ⟨[]⟩ (some ⟨.empty .usual, fun _ => false⟩) 1).execution? "a" = none := rfl
  have hrun := Run.of_performNew hfresh hfirst
  exact ((((hrun.of_startAlso hsecond).of_startAlso hthird).of_goOn hfourth).of_goOn
    hfifth).of_startAlso h

theorem finds_live_and_remembered_passing :
    ∃ actions e events, passing = some (actions, e, events) ∧ e.live = ["c"] ∧
      e.finished = ["a"] ∧ retired events = ["b", "a"] ∧
      (∃ x, e.handle "c" = .ok x) ∧ (∃ x, e.handle "a" = .ok x) ∧
      e.handle "b" = .error (unknownMessage "b") ∧
      ∃ x doc, e.execution? "b" = some x ∧ x.status = .succeeded ∧ x.result "b" = .ok doc := by
  have hcomputed : passing.any (fun run =>
      run.2.1.live == ["c"] && run.2.1.finished == ["a"] && retired run.2.2 == ["b", "a"] &&
        run.2.2.any fun event => match event with
          | .finished id o => id == "b" && o.status == .succeeded
          | _ => false) = true := by decide +kernel
  obtain ⟨⟨actions, e, events⟩, hsome, hrest⟩ := (Option.any_eq_true _ _).1 hcomputed
  simp only [Bool.and_eq_true, beq_iff_eq, List.any_eq_true] at hrest
  obtain ⟨⟨⟨hlive, hfinished⟩, hretired⟩, event, hevent, htells⟩ := hrest
  obtain ⟨o, rfl, hstatus⟩ : ∃ o, event = .finished "b" o ∧ o.status = .succeeded := by
    cases event with
    | finished id o =>
      simp only [Bool.and_eq_true, beq_iff_eq] at htells
      exact ⟨o, by rw [htells.1], htells.2⟩
    | _ => cases htells
  obtain ⟨-, hfinds, -, -, hends, -⟩ := (run_passing hsome).finds_live_and_remembered
  obtain ⟨x, hx, hsettled, -, hsucceeded⟩ := hends "b" o hevent
  obtain ⟨doc, hdoc⟩ := hsucceeded hstatus
  obtain ⟨y, -, hy⟩ := (hfinds "c").1 (by simp [hlive])
  obtain ⟨z, -, hz⟩ := (hfinds "a").1 (by simp [hfinished])
  exact ⟨actions, e, events, hsome, hlive, hfinished, hretired, ⟨y, hy⟩, ⟨z, hz⟩,
    (hfinds "b").2 (by simp [hlive, hfinished]), x, doc, hx, hsettled.status.trans hstatus, hdoc⟩

end Engine

end ReminderFlow
