import ReminderFlow.Proofs.Datum
import ReminderFlow.Proofs.Engine.Answers
import ReminderFlow.Proofs.Engine.Limit
import ReminderFlow.Proofs.Engine.Scheduler
import ReminderFlow.Proofs.Number.Nearest
import ReminderFlow.Proofs.Run.Proper
import ReminderFlow.Service.Trigger

namespace ReminderFlow

/-- Some number in the value is not finite. -/
inductive Value.HoldsNonFinite : Value → Prop
  | float {x : Double} (beyond : x.isFinite = false) : HoldsNonFinite (.float x)
  | item {items : List Value} {v : Value} (here : v ∈ items) (inner : HoldsNonFinite v) :
      HoldsNonFinite (.arr items)
  | member {members : List (String × Value)} {m : String × Value} (here : m ∈ members)
      (inner : HoldsNonFinite m.2) : HoldsNonFinite (.obj members)

namespace Datum

mutual

/-- A value that no document can hold has a number which is not finite. -/
theorem holdsNonFinite_of_toValue : (v : Value) → {e : Incompatible} →
    (ofValue v).toValue = .error e → v.HoldsNonFinite ∧ ∃ x, e = .nonFinite x ∧ x.isFinite = false
  | .null, _, h | .bool _, _, h | .int _, _, h | .str _, _, h => by cases h
  | .float x, e, h => by
    rw [ofValue, toValue] at h
    split_ifs at h with hx
    cases h
    have hbeyond := Bool.eq_false_iff.2 hx
    exact ⟨.float hbeyond, x, rfl, hbeyond⟩
  | .arr items, e, h => by
    rw [ofValue, toValue, map_eq_error_iff] at h
    obtain ⟨⟨v, hv, hinner⟩, he⟩ := holdsNonFinite_of_toItems items h
    exact ⟨.item hv hinner, he⟩
  | .obj members, e, h => by
    rw [ofValue, toValue, map_eq_error_iff] at h
    obtain ⟨⟨m, hm, hinner⟩, he⟩ := holdsNonFinite_of_toMembers members h
    exact ⟨.member hm hinner, he⟩

theorem holdsNonFinite_of_toItems : (items : List Value) → {e : Incompatible} →
    toItems (ofItems items) = .error e →
      (∃ v ∈ items, v.HoldsNonFinite) ∧ ∃ x, e = .nonFinite x ∧ x.isFinite = false
  | [], _, h => by cases h
  | v :: rest, e, h => by
    rw [List.exists_mem_cons_iff]
    rw [ofItems, toItems] at h
    rcases bind_eq_error_iff.1 h with hv | ⟨w, -, h⟩
    · obtain ⟨hinner, he⟩ := holdsNonFinite_of_toValue v hv
      exact ⟨.inl hinner, he⟩
    · rcases bind_eq_error_iff.1 h with hrest | ⟨more, -, hpure⟩
      · obtain ⟨hinner, he⟩ := holdsNonFinite_of_toItems rest hrest
        exact ⟨.inr hinner, he⟩
      · cases hpure

theorem holdsNonFinite_of_toMembers : (members : List (String × Value)) → {e : Incompatible} →
    toMembers (ofMembers members) = .error e →
      (∃ m ∈ members, m.2.HoldsNonFinite) ∧ ∃ x, e = .nonFinite x ∧ x.isFinite = false
  | [], _, h => by cases h
  | (k, v) :: rest, e, h => by
    rw [List.exists_mem_cons_iff]
    rw [ofMembers, toMembers] at h
    rcases bind_eq_error_iff.1 h with hv | ⟨w, -, h⟩
    · obtain ⟨hinner, he⟩ := holdsNonFinite_of_toValue v hv
      exact ⟨.inl hinner, he⟩
    · rcases bind_eq_error_iff.1 h with hrest | ⟨more, -, hpure⟩
      · obtain ⟨hinner, he⟩ := holdsNonFinite_of_toMembers rest hrest
        exact ⟨.inr hinner, he⟩
      · cases hpure

end

theorem mem_ofItems {v : Value} {items : List Value} (h : v ∈ items) :
    ofValue v ∈ ofItems items := by
  induction h with
  | head rest => exact List.mem_cons_self
  | tail w _ ih => exact List.mem_cons_of_mem _ ih

theorem mem_ofMembers {m : String × Value} {members : List (String × Value)} (h : m ∈ members) :
    (.str m.1, ofValue m.2) ∈ ofMembers members := by
  induction h with
  | head rest => exact List.mem_cons_self
  | tail w _ ih => exact List.mem_cons_of_mem _ ih

/-- No document can hold a value with a number that is not finite. -/
theorem not_isJson_of_holdsNonFinite {v : Value} (h : v.HoldsNonFinite) : ¬(ofValue v).IsJson := by
  induction h with
  | float beyond =>
    rintro ⟨⟩
    rename_i finite
    cases beyond.symm.trans finite
  | item here inner ih =>
    rintro ⟨⟩
    rename_i each
    exact ih (each _ (mem_ofItems here))
  | member here inner ih =>
    rintro ⟨⟩
    rename_i each
    exact ih (each _ (mem_ofMembers here))

theorem not_holdsNonFinite_of_ofDatum {v : Value} {doc : Document}
    (h : Document.ofDatum (ofValue v) = .ok doc) : ¬v.HoldsNonFinite := by
  obtain ⟨w, hw, -⟩ := map_eq_ok_iff.1 h
  exact fun hheld => not_isJson_of_holdsNonFinite hheld (isJson_iff.2 ⟨w, hw⟩)

end Datum

/-- Whole numbers are finite, and so are all doubles but the infinities and what is no number. -/
def Number.IsFinite : Number → Prop
  | whole _ => True
  | double x => x.isFinite = true

theorem Number.exists_micros {n : Number} (h : n.IsFinite) : ∃ micros, n.micros? = .ok micros := by
  cases n with
  | whole n => exact ⟨_, rfl⟩
  | double x =>
    cases x with
    | finite negative rank => exact ⟨_, rfl⟩
    | _ => cases h

/-- A time limit in seconds that is finite and more than nothing. -/
structure Datum.IsLimit (limit : Datum) (seconds : Number) : Prop where
  given : limit.limit? = .ok seconds
  finite : seconds.IsFinite

namespace Engine

/-- What keeps an execution from being registered if its time limit is finite and more than
nothing. -/
theorem prepare_cases (now : Instant) (m : Machine) (input : Datum) {limit : Datum}
    {seconds : Number} (hlimit : limit.IsLimit seconds) :
    (∃ e, Document.ofDatum input = .error e ∧
      prepare now (some m) input limit = .error (.input e)) ∨
    ∃ doc micros, Document.ofDatum input = .ok doc ∧ seconds.micros? = .ok micros ∧
      (now.after? micros = none ∧ prepare now (some m) input limit = .error (.limit .tooLong) ∨
        ∃ deadline, now.after? micros = some deadline ∧
          prepare now (some m) input limit = .ok (m, doc, deadline)) := by
  obtain ⟨micros, hmicros⟩ := seconds.exists_micros hlimit.finite
  cases hdoc : Document.ofDatum input with
  | error e =>
    refine .inl ⟨e, rfl, ?_⟩
    simp only [prepare, hlimit.given, hdoc, Except.mapError, bind, Except.bind]
  | ok doc =>
    refine .inr ⟨doc, micros, rfl, hmicros, ?_⟩
    simp only [prepare, hlimit.given, hdoc, hmicros, Except.mapError, bind, Except.bind]
    cases now.after? micros with
    | none => exact .inl ⟨rfl, rfl⟩
    | some deadline => exact .inr ⟨deadline, rfl, rfl⟩

end Engine

namespace Trigger

/-- A timer of so many seconds can be set. -/
def Bearable (seconds : Number) : Prop := (seconds.nanoseconds + 999) / 1000 ≤ longestWait

theorem waitTime?_of_bearable {seconds : Number} (hfinite : seconds.IsFinite) (h : Bearable seconds) :
    waitTime? seconds = .ok seconds.nanoseconds := by
  have hne : seconds ≠ .double (.infinite false) := by
    rintro rfl
    cases hfinite
  rw [waitTime?, if_neg hne, if_neg (Nat.not_lt.2 h)]

theorem waitTime?_of_not_bearable {seconds : Number} (h : ¬Bearable seconds) :
    waitTime? seconds = .error .waitTooLong := by
  rw [waitTime?, if_pos (Nat.not_le.1 h), ite_self]

/-- A limit that is more than nothing and can be waited for can be told. -/
theorem exists_limitText {seconds : Number} (hpos : (Number.whole 0).lt seconds = true)
    (hbearable : Bearable seconds) : ∃ text, limitText? seconds = .ok text := by
  cases seconds with
  | double x => exact ⟨_, rfl⟩
  | whole n =>
    have hpos : 0 < n := by
      simp only [Number.lt, Number.place?, Number.Place.lt, decide_eq_true_eq] at hpos
      exact lt_of_mul_lt_mul_right hpos (Int.natCast_nonneg _)
    have hlog : n.natAbs.log2 < 64 := by
      refine (Nat.log2_lt (by omega)).2 ?_
      have hnanoseconds : (Number.whole n).nanoseconds = n.toNat * 1000000000 := rfl
      have hlongest : longestWait = 9223372036854775 := rfl
      rw [Bearable, hnanoseconds, hlongest] at hbearable
      omega
    have hfits : fitsDouble n = true := Double.isFinite_ofInt (hlog.trans (by decide))
    exact ⟨_, by rw [limitText?, if_pos hfits]⟩

/-- The answer tells how an execution stands: that it still runs, or how it has ended. -/
inductive Answers (id : String) (limit : Number) (x : Execution) : Response → Prop
  | running {text : String} (undone : x.phase.isDone = false) (told : limitText? limit = .ok text) :
      Answers id limit x (stillRunning id text)
  | done {at_ : Instant} {o : Outcome} {response : Response} (done : x.phase = .done at_ o)
      (tells : Tells id o response) : Answers id limit x response

theorem isDone_eq {s : Scheduler} {id : String} {x : Execution}
    (hx : s.engine.execution? id = some x) : s.isDone id = x.phase.isDone := by
  rw [Scheduler.isDone, hx]
  rfl

/-- Whatever has happened to an execution since it was started, there is an answer that tells it. -/
theorem exists_answer {first : Engine} {s : Scheduler} {actions : List Engine.Action}
    {events : List Engine.Event} {id : String} {x : Execution} {limit : Number} {text : String}
    (hrun : Engine.Run first actions s.engine events) (hnew : first.execution? id = none)
    (hx : s.engine.execution? id = some x) (htext : limitText? limit = .ok text) :
    ∃ response, answer s id limit = .ok response ∧ Answers id limit x response := by
  have hdone := isDone_eq hx
  cases hphase : x.phase.isDone with
  | false =>
    refine ⟨_, ?_, .running hphase htext⟩
    rw [answer, hdone, hphase, if_neg Bool.false_ne_true, htext]
    rfl
  | true =>
    obtain ⟨at_, o, hended⟩ := Engine.phase_of_isDone hphase
    have hend : x.phase.end? = some (at_, o) := by
      rw [hended]
      rfl
    obtain ⟨response, hresponse, htells⟩ := exists_tells id (hrun.isTerminal hnew hx hend)
      ((hrun.holdsProper hnew hx).isSome_document hend)
    refine ⟨response, ?_, .done hended htells⟩
    rw [answer, hdone, hphase, if_pos rfl, hx, Option.bind_some, Execution.outcome?_of_end hend,
      Option.bind_some, hresponse]

/-- One execution has been started, of the machine against the body, and all else that has happened
are moves. -/
structure Starts (t : Trigger) (s : Scheduler) (id : String) (body : Datum) (after : Scheduler) :
    Prop where
  sound : after.Sound
  run : ∃ moves events, Engine.Run s.engine
    (.start s.instant id (some t.machine) body t.executionLimit false :: moves) after.engine events ∧
    ∀ a ∈ moves, ∃ now m, a = .move now m
  execution : ∃ x, after.engine.execution? id = some x ∧ x.machine = t.machine ∧
    Document.ofDatum body = .ok x.input
  single : ∀ other, other ≠ id → s.engine.execution? other = none →
    after.engine.execution? other = none

variable {t : Trigger} {s : Scheduler} {id : String}

theorem Starts.plays {body : Datum} {d after : Scheduler} (h : Starts t s id body d)
    (hsound : after.Sound) (hplays : Engine.Plays d.engine after.engine) :
    Starts t s id body after := by
  obtain ⟨moves, events, hrun, hmoves⟩ := h.run
  obtain ⟨x, hx, hmachine, hinput⟩ := h.execution
  obtain ⟨y, hy, hmachine', hinput'⟩ := hplays.same hx
  refine ⟨hsound, ?_, ⟨y, hy, hmachine'.trans hmachine, hinput' ▸ hinput⟩,
    fun other hne hnone => hplays.absent (h.single other hne hnone)⟩
  obtain ⟨more, seen, hrun', hmoves'⟩ := hplays
  exact ⟨moves ++ more, _, hrun.append hrun', List.forall_mem_append.2 ⟨hmoves, hmoves'⟩⟩

theorem starts_of_start (hsound : s.Sound) (hnew : s.engine.execution? id = none) {body : Datum}
    {started : Scheduler} (h : s.start id (some t.machine) body t.executionLimit = .ok started) :
    Starts t s id body started := by
  obtain ⟨hstarted, -, -, events, hstart⟩ := hsound.start hnew h
  obtain ⟨hopen, m, doc, deadline, hprepare, hregister⟩ := Engine.start_eq hstart
  obtain ⟨hm, hdoc, -⟩ := Engine.prepare_eq hprepare
  cases hm
  obtain ⟨hexecutions, -⟩ := Engine.register_spec hregister
  let x : Execution := ⟨t.machine, doc, s.instant, deadline, [], .scheduled, []⟩
  have hput (other : String) :
      started.engine.execution? other = (s.engine.put id x).execution? other := by
    rw [Engine.execution?, hexecutions, Engine.execution?]
  refine ⟨hstarted, ⟨[], _, Engine.Run.rest.next (.started hnew hprepare hregister (.inr hopen)),
    by simp⟩, ⟨x, (hput id).trans (Engine.execution?_put_self _ id x), rfl, hdoc⟩,
    fun other hne hnone => ?_⟩
  exact ((hput other).trans (Engine.execution?_put_of_ne _ hne x)).trans hnone

/-- What keeps a request from starting an execution, if the time limit is finite and more than
nothing. -/
theorem start_cases (hopen : s.engine.closed = false) (id : String) (m : Machine)
    (body : Datum) {limit : Datum}
    {seconds : Number} (hlimit : limit.IsLimit seconds) :
    (∃ e, Document.ofDatum body = .error e ∧
      s.start id (some m) body limit = .error (.input e)) ∨
    ∃ doc micros, Document.ofDatum body = .ok doc ∧ seconds.micros? = .ok micros ∧
      (s.instant.after? micros = none ∧ s.start id (some m) body limit = .error (.limit .tooLong) ∨
        ∃ started, s.start id (some m) body limit = .ok started) := by
  have hstart : s.engine.start s.instant id (some m) body limit =
      (Engine.prepare s.instant (some m) body limit).map fun p =>
        s.engine.register s.instant id p.1 p.2.1 p.2.2 := by
    rw [Engine.start, hopen, if_neg Bool.false_ne_true]
  rw [Scheduler.start, hstart]
  rcases Engine.prepare_cases s.instant m body hlimit with ⟨e, hdoc, hprepare⟩ |
    ⟨doc, micros, hdoc, hmicros, ⟨hafter, hprepare⟩ | ⟨deadline, -, hprepare⟩⟩
  · rw [hprepare]
    exact .inl ⟨e, hdoc, rfl⟩
  · rw [hprepare]
    exact .inr ⟨doc, micros, hdoc, hmicros, .inl ⟨hafter, rfl⟩⟩
  · rw [hprepare]
    exact .inr ⟨doc, micros, hdoc, hmicros, .inr ⟨_, rfl⟩⟩

theorem await_of_bearable (hfinite : t.requestLimit.IsFinite) (hbearable : Bearable t.requestLimit) :
    let after := s.waitFor (Scheduler.isDone id) t.requestLimit.nanoseconds
    t.await s id = (after, answer after id t.requestLimit) := by
  simp only [await, waitTime?_of_bearable hfinite hbearable]

theorem await_of_not_bearable (hbearable : ¬Bearable t.requestLimit) :
    t.await s id = (s, .error .waitTooLong) := by
  simp only [await, waitTime?_of_not_bearable hbearable]

theorem submit_obj (t : Trigger) (s : Scheduler) (id : String) (members : List (String × Value)) :
    t.submit s id (.ofValue (.obj members)) =
      if t.room.walks (.ofValue (.obj members)) then
        match s.start id (some t.machine) (.ofValue (.obj members)) t.executionLimit with
        | .error e => (s, .error (.start e))
        | .ok s => t.await s id
      else (s, .error .bodyTooDeep) := rfl

/-- The execution is done, or the time of the request is up. -/
def WaitedFor (request : Number) (started after : Scheduler) (x : Execution) : Prop :=
  x.phase.isDone = true ∨ started.now + request.nanoseconds ≤ after.now

/-- All that a request may come to: the scheduler after it, and the answer or the fault. -/
inductive Submits (t : Trigger) (s : Scheduler) (id : String) (v : Value) (execution : Number) :
    Scheduler × Except Fault Response → Prop
  | notObject (other : ∀ members, v ≠ .obj members) :
      Submits t s id v execution (s, .ok invalidRequest)
  /-- The body is nested deeper than the stack allows. -/
  | tooDeep {members : List (String × Value)} (object : v = .obj members)
      (deep : t.room.walks (.ofValue v) = false) :
      Submits t s id v execution (s, .error .bodyTooDeep)
  | notFinite {members : List (String × Value)} {x : Double} (object : v = .obj members)
      (held : v.HoldsNonFinite) (beyond : x.isFinite = false) :
      Submits t s id v execution (s, .error (.start (.input (.nonFinite x))))
  | beyondCalendar {members : List (String × Value)} {micros : Nat} (object : v = .obj members)
      (limit : execution.micros? = .ok micros) (beyond : s.instant.after? micros = none) :
      Submits t s id v execution (s, .error (.start (.limit .tooLong)))
  | tooLong {members : List (String × Value)} {started : Scheduler} (object : v = .obj members)
      (starts : Starts t s id (.ofValue v) started) (beyond : ¬Bearable t.requestLimit) :
      Submits t s id v execution (started, .error .waitTooLong)
  | answered {members : List (String × Value)} {started after : Scheduler} {x : Execution}
      {response : Response} (object : v = .obj members)
      (starts : Starts t s id (.ofValue v) started) (runs : Starts t s id (.ofValue v) after)
      (found : after.engine.execution? id = some x)
      (waited : WaitedFor t.requestLimit started after x)
      (answers : Answers id t.requestLimit x response) :
      Submits t s id v execution (after, .ok response)

theorem submits_of_start (hsound : s.Sound) (hnew : s.engine.execution? id = none)
    {members : List (String × Value)} {execution : Number}
    (hpos : (Number.whole 0).lt t.requestLimit = true) (hfinite : t.requestLimit.IsFinite)
    {started : Scheduler}
    (h : s.start id (some t.machine) (.ofValue (.obj members)) t.executionLimit = .ok started) :
    Submits t s id (.obj members) execution (t.await started id) := by
  have hstarts := starts_of_start hsound hnew h
  by_cases hbearable : Bearable t.requestLimit
  · obtain ⟨text, htext⟩ := exists_limitText hpos hbearable
    obtain ⟨hpasses, hend⟩ :=
      hstarts.sound.waitFor (Scheduler.isDone id) t.requestLimit.nanoseconds
    have hplays := hstarts.plays hpasses.sound hpasses.plays
    obtain ⟨x, hx, -⟩ := hplays.execution
    obtain ⟨moves, events, hrun, -⟩ := hplays.run
    obtain ⟨response, hanswer, hanswers⟩ := exists_answer hrun hnew hx htext
    rw [await_of_bearable hfinite hbearable, hanswer]
    refine .answered rfl hstarts hplays hx ?_ hanswers
    rw [WaitedFor, ← isDone_eq hx]
    exact hend
  · rw [await_of_not_bearable hbearable]
    exact .tooLong rfl hstarts hbearable

/-- A request with any body, to an engine that is open, comes to one of these ends; and in whatever
order things happen once its execution is started, there is an answer that tells how it stands. -/
theorem submit_answers (t : Trigger) (s : Scheduler) (id : String) (v : Value)
    {execution : Number} (hsound : s.Sound) (hopen : s.engine.closed = false)
    (hnew : s.engine.execution? id = none) (hexecution : t.executionLimit.IsLimit execution)
    (hpos : (Number.whole 0).lt t.requestLimit = true) (hfinite : t.requestLimit.IsFinite) :
    Submits t s id v execution (t.submit s id (.ofValue v)) ∧
    ∀ (after : Scheduler) (actions : List Engine.Action) (events : List Engine.Event) (x : Execution),
      Engine.Run s.engine actions after.engine events → after.engine.execution? id = some x →
      Bearable t.requestLimit →
      ∃ response, answer after id t.requestLimit = .ok response ∧
        Answers id t.requestLimit x response := by
  refine ⟨?_, fun after actions events x hrun hx hbearable => ?_⟩
  · cases v with
    | obj members =>
      rw [submit_obj]
      split_ifs with hwalks
      · rcases start_cases hopen id t.machine (.ofValue (.obj members)) hexecution with
          ⟨e, hdoc, hstart⟩ | ⟨-, micros, -, hmicros, ⟨hafter, hstart⟩ | ⟨started, hstart⟩⟩
        · rw [hstart]
          obtain ⟨hheld, x, rfl, hx⟩ :=
            Datum.holdsNonFinite_of_toValue (.obj members) (map_eq_error_iff.1 hdoc)
          exact .notFinite rfl hheld hx
        · rw [hstart]
          exact .beyondCalendar rfl hmicros hafter
        · rw [hstart]
          exact submits_of_start hsound hnew hpos hfinite hstart
      · exact .tooDeep rfl (Bool.eq_false_iff.2 hwalks)
    | _ => exact .notObject fun _ => Value.noConfusion
  · obtain ⟨text, htext⟩ := exists_limitText hpos hbearable
    exact exists_answer hrun hnew hx htext

/-- Reminders with ten seconds for an execution and eight for a request. -/
def reminding : Trigger := ⟨.reminder, .int 10, .whole 8, .ample⟩

def idle : Scheduler := .make (.make ⟨[]⟩ none 1000) .usual ⟨0⟩ 4

theorem isLimit_int {n : Int} (h : 0 < n) : (Datum.int n).IsLimit (.whole n) :=
  ⟨by rw [Datum.limit?, if_pos h], trivial⟩

/-- A body that asks for a way of sending which there is not. -/
def faxed : Value := .obj [("waitSeconds", .int 0), ("preference", .str "fax")]

theorem submit_answers_faxed :
    idle.Sound ∧ Submits reminding idle "r" faxed (.whole 10)
      (reminding.submit idle "r" (.ofValue faxed)) ∧
    (reminding.submit idle "r" (.ofValue faxed)).2.toOption.map Response.status = some 500 := by
  have hsound : idle.Sound := Scheduler.sound_make _ _ _ _
  exact ⟨hsound, (submit_answers reminding idle "r" faxed hsound rfl rfl (isLimit_int (by decide))
    (by decide +kernel) trivial).1, by decide +kernel⟩

/-- A number that is not finite, as the body is read, leaves a request without an answer. -/
theorem not_always_answered :
    ¬∀ (t : Trigger) (s : Scheduler) (id : String) (v : Value) (execution : Number),
      s.Sound → s.engine.closed = false → s.engine.execution? id = none →
      t.executionLimit.IsLimit execution → (Number.whole 0).lt t.requestLimit = true →
      t.requestLimit.IsFinite →
      ∃ response, (t.submit s id (.ofValue v)).2 = .ok response := by
  intro h
  obtain ⟨response, hresponse⟩ := h reminding idle "r" (.obj [("a", .float .nan)]) (.whole 10)
    (Scheduler.sound_make _ _ _ _) rfl rfl (isLimit_int (by decide)) (by decide +kernel) trivial
  have hnone : (reminding.submit idle "r" (.ofValue (.obj [("a", .float .nan)]))).2.toOption.isSome =
      false := by decide +kernel
  rw [hresponse] at hnone
  cases hnone

end Trigger

end ReminderFlow
