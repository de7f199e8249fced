import Mathlib.Data.List.Forall2
import ReminderFlow.Proofs.Engine.Records
import ReminderFlow.Proofs.Engine.Story

namespace ReminderFlow

/-- A record of the execution with these pointers and this end, made at some time. -/
def Execution.Reports (id : String) (x : Execution) (states : List (String × String)) :
    Option (Instant × Outcome) → Record → Prop
  | none, r => ∃ now, r = .running id x.started x.deadline now x.input states
  | some (at_, outcome), r =>
    ∃ now, Record.last? id x.started x.deadline now x.input states at_ outcome = some r

theorem Record.executionId_of_last? {id : String} {started deadline updated at_ : Instant}
    {input : Document} {states : List (String × String)} {outcome : Outcome} {r : Record}
    (h : last? id started deadline updated input states at_ outcome = some r) :
    r.executionId = id := by
  simp only [last?, Option.bind_eq_bind, Option.bind_eq_some_iff] at h
  obtain ⟨error, -, cause, -, heq⟩ := h
  obtain rfl := Option.some.inj heq
  rfl

namespace Engine

/-- The pointers of an execution, worked out from the entries and ends in its events. -/
def tracked (states : List (String × String)) (events : List Chain.Event) :
    List (String × String) :=
  events.foldl (fun states event => event.track states) states

/-- The pointers right after each entry of a state. -/
def snapshots (states : List (String × String)) :
    List Chain.Event → List (List (String × String))
  | [] => []
  | .entered branch state type :: rest =>
    let states := (Chain.Event.entered branch state type).track states
    states :: snapshots states rest
  | event :: rest => snapshots (event.track states) rest

theorem snapshots_append (states : List (String × String)) (before after : List Chain.Event) :
    snapshots states (before ++ after) =
      snapshots states before ++ snapshots (tracked states before) after := by
  induction before generalizing states with
  | nil => rfl
  | cons event rest ih =>
    cases event with
    | entered branch state type => exact congrArg _ (ih _)
    | _ => exact ih _

theorem tracked_append (states : List (String × String)) (before after : List Chain.Event) :
    tracked states (before ++ after) = tracked (tracked states before) after :=
  List.foldl_append

/-- The records by which the execution tells of its end, if it has ended. -/
def Closes (id : String) (x : Execution) (closing : List Record) : Prop :=
  match x.phase.end? with
  | none => closing = []
  | some (at_, outcome) => ∃ now,
      closing = (Record.last? id x.started x.deadline now x.input [] at_ outcome).toList

/-- The log of an execution, told from what was to be seen of its chains. -/
structure Logged (id : String) (x : Execution) (events : List Event) : Prop where
  pointers : x.states =
    if x.phase.end?.isSome then [] else tracked [] (chainEvents id events)
  records : ∃ opening entries closing, recorded id events = opening :: (entries ++ closing) ∧
    x.Reports id [] none opening ∧
    List.Forall₂ (fun states r => x.Reports id states none r)
      (snapshots [] (chainEvents id events)) entries ∧
    Closes id x closing

def takes (e : Engine) : Bool := e.archive.isSome && !e.shut

theorem takes_of_same {e d : Engine} (archive : d.archive = e.archive) (gates : d.gates = e.gates) :
    d.takes = e.takes := by
  rw [takes, takes, archive, show d.shut = e.shut from congrArg Prod.snd gates]

theorem persist_of_takes {e : Engine} (h : e.takes = true) (r : Record) :
    e.persist (some r) = ({ e with writing := e.writing ++ [r] }, [.recorded r]) := by
  rw [takes, Bool.and_eq_true, Bool.not_eq_true'] at h
  simp only [persist, h.2, Option.isNone_eq_false_iff.2 h.1, Bool.false_eq_true, if_false]

theorem recorded_persist {e : Engine} (h : e.takes = true) {id : String} {r : Option Record}
    (hid : ∀ s, r = some s → s.executionId = id) : recorded id (e.persist r).2 = r.toList := by
  cases r with
  | none => rfl
  | some s =>
    rw [persist_of_takes h]
    simp [recorded, hid s rfl]

theorem recorded_persist_of_ne {id other : String} (hne : id ≠ other) (e : Engine)
    {r : Option Record} (hid : ∀ s, r = some s → s.executionId = id) :
    recorded other (e.persist r).2 = [] := by
  obtain ⟨-, h⟩ | ⟨s, -, -, h⟩ | ⟨s, rfl, -, -, h⟩ := e.persist_cases r
  · rw [h]
    rfl
  · rw [h]
    rfl
  · rw [h]
    simp [recorded, hid s rfl, hne]

theorem executionId_of_record {x : Execution} {id : String} {now : Instant} (s : Record)
    (h : some (x.record id now) = some s) : s.executionId = id := by
  cases h
  rfl

theorem executionId_of_record? {x : Execution} {id : String} {now : Instant} (s : Record)
    (h : x.record? id now = some s) : s.executionId = id := by
  unfold Execution.record? at h
  split at h
  · cases h
    rfl
  · exact Record.executionId_of_last? h

theorem follow_records {e : Engine} (htakes : e.takes = true) (now : Instant) (id : String)
    (x : Execution) (seen : List Chain.Event) :
    (e.follow now id x seen).2.1 = { x with states := tracked x.states seen } ∧
      List.Forall₂ (fun states r => x.Reports id states none r) (snapshots x.states seen)
        (recorded id (e.follow now id x seen).2.2) := by
  induction seen generalizing e x with
  | nil => exact ⟨rfl, .nil⟩
  | cons event rest ih =>
    have hstep (d : Engine) (hd : d.takes = true) :=
      ih hd { x with states := event.track x.states }
    cases event with
    | entered branch state type =>
      let y : Execution := { x with states := (Chain.Event.entered branch state type).track x.states }
      let r := y.record id now
      let d : Engine := { e with writing := e.writing ++ [r] }
      have hpersist : e.persist (some r) = (d, [.recorded r]) := persist_of_takes htakes r
      have hfollow : e.follow now id x (.entered branch state type :: rest) =
          let after := d.follow now id y rest
          (after.1, after.2.1, .recorded r :: .chain id (.entered branch state type) :: after.2.2) := by
        simp only [follow]
        rw [hpersist]
        rfl
      obtain ⟨hx, hrecords⟩ := hstep d htakes
      rw [hfollow]
      refine ⟨hx, ?_⟩
      have hrecorded (more : List Event) :
          recorded id (.recorded r :: .chain id (.entered branch state type) :: more) =
            r :: recorded id more := by
        have hid : r.executionId = id := rfl
        simp [recorded, hid]
      rw [hrecorded]
      exact .cons ⟨now, rfl⟩ hrecords
    | _ => exact hstep e htakes

theorem recorded_follow_of_ne {id other : String} (hne : id ≠ other) (e : Engine) (now : Instant)
    (x : Execution) (seen : List Chain.Event) : recorded other (e.follow now id x seen).2.2 = [] := by
  induction seen generalizing e x with
  | nil => rfl
  | cons event rest ih =>
    cases event with
    | entered branch state type =>
      simp only [follow]
      rw [recorded_append, recorded_persist_of_ne hne e executionId_of_record, List.nil_append]
      exact ih _ _
    | _ => exact ih e _

theorem recorded_settle {e : Engine} (htakes : e.takes = true) (now : Instant) (id : String)
    (x : Execution) (outcome : Outcome) (left : List Chain.Event) (crash : Option Fault) :
    recorded id (e.settle now id x outcome left crash).2 =
      (Record.last? id x.started x.deadline now x.input [] now outcome).toList := by
  let y : Execution := { x with states := [], phase := .finishing now outcome }
  have hput : (e.put id y).takes = true := htakes
  have hpersist : recorded id ((e.put id y).persist (y.record? id now)).2 =
      (y.record? id now).toList := recorded_persist hput executionId_of_record?
  simp only [settle]
  rw [recorded_append, (quiet_chain id left).recorded, List.nil_append]
  exact hpersist

theorem recorded_settle_of_ne {id other : String} (hne : id ≠ other) (e : Engine) (now : Instant)
    (x : Execution) (outcome : Outcome) (left : List Chain.Event) (crash : Option Fault) :
    recorded other (e.settle now id x outcome left crash).2 = [] := by
  simp only [settle]
  rw [recorded_append, (quiet_chain id left).recorded, List.nil_append]
  exact recorded_persist_of_ne hne _ executionId_of_record?

/-- If the engine does not have the execution then nothing is logged for it, and otherwise its log
goes on. Once it has ended, its end stands and nothing more is logged. -/
structure Logs (id : String) (e after : Engine) (more : List Event) : Prop where
  takes : after.takes = e.takes
  absent : e.execution? id = none → after.execution? id = none ∧ recorded id more = []
  logged : e.takes = true → ∀ x events, e.execution? id = some x → Logged id x events →
    ∃ y, after.execution? id = some y ∧ Logged id y (events ++ more)
  ended : ∀ x, e.execution? id = some x → x.phase.end?.isSome = true →
    recorded id more = [] ∧ ∃ y, after.execution? id = some y ∧ y.phase.end? = x.phase.end?

/-- The log stays as it is while nothing happens that belongs to it. -/
theorem Logged.of_same {id : String} {x y : Execution} {events more : List Event}
    (h : Logged id x events) (hstates : y.states = x.states) (hend : y.phase.end? = x.phase.end?)
    (hstarted : y.started = x.started) (hdeadline : y.deadline = x.deadline)
    (hinput : y.input = x.input) (hrecorded : recorded id more = [])
    (hseen : chainEvents id more = []) : Logged id y (events ++ more) := by
  have hreports (states : List (String × String)) (end_ : Option (Instant × Outcome)) (r : Record) :
      y.Reports id states end_ r ↔ x.Reports id states end_ r := by
    unfold Execution.Reports
    rw [hstarted, hdeadline, hinput]
  obtain ⟨opening, entries, closing, hrecords, hopening, hentries, hclosing⟩ := h.records
  constructor
  · rw [hstates, hend, chainEvents_append, hseen, List.append_nil]
    exact h.pointers
  · refine ⟨opening, entries, closing, ?_, (hreports _ _ _).2 hopening, ?_, ?_⟩
    · rw [recorded_append, hrecorded, List.append_nil, hrecords]
    · rw [chainEvents_append, hseen, List.append_nil]
      exact hentries.imp fun states r => (hreports states none r).2
    · unfold Closes at hclosing ⊢
      rw [hend, hstarted, hdeadline, hinput]
      exact hclosing

theorem Logs.of_same {id : String} {e after : Engine} {more : List Event}
    (ha : after.takes = e.takes) (hx : after.execution? id = e.execution? id)
    (hrecorded : recorded id more = []) (hseen : chainEvents id more = []) :
    Logs id e after more := by
  refine ⟨ha, fun hnone => ⟨hx.trans hnone, hrecorded⟩, fun _ x events hfound hlogged => ?_,
    fun x hfound _ => ⟨hrecorded, x, hx.trans hfound, rfl⟩⟩
  exact ⟨x, hx.trans hfound, hlogged.of_same rfl rfl rfl rfl rfl hrecorded hseen⟩

theorem Logs.of_put {id : String} {e after : Engine} {more : List Event} {x y : Execution}
    (ha : after.takes = e.takes) (hx : e.execution? id = some x)
    (hy : after.execution? id = some y)
    (hend : x.phase.end? = none ∨ recorded id more = [] ∧ y.phase.end? = x.phase.end?)
    (h : e.takes = true → ∀ events, Logged id x events → Logged id y (events ++ more)) :
    Logs id e after more := by
  refine ⟨ha, fun hnone => ?_, fun htakes z events hz hlogged => ?_, fun z hz hsome => ?_⟩
  · rw [hx] at hnone
    cases hnone
  · obtain rfl := Option.some.inj (hx.symm.trans hz)
    exact ⟨y, hy, h htakes events hlogged⟩
  · obtain rfl := Option.some.inj (hx.symm.trans hz)
    rcases hend with hnone | ⟨hrecorded, hend⟩
    · rw [hnone] at hsome
      cases hsome
    · exact ⟨hrecorded, y, hy, hend⟩

theorem snapshots_of_left {events : List Chain.Event} (h : ∀ event ∈ events, ∃ b, event = .left b)
    (states : List (String × String)) : snapshots states events = [] := by
  induction events generalizing states with
  | nil => rfl
  | cons event rest ih =>
    rw [List.forall_mem_cons] at h
    obtain ⟨⟨b, rfl⟩, hrest⟩ := h
    exact ih hrest _

theorem left_of_leaving (branch : String) :
    ∀ event ∈ Chain.leaving branch, ∃ b, event = Chain.Event.left b := by
  unfold Chain.leaving
  split_ifs
  · simp
  · exact fun event hevent => ⟨branch, List.mem_singleton.1 hevent⟩

/-- The execution goes on: states are entered and left. -/
theorem Logged.followed {id : String} {x : Execution} {next : Chain} {events more : List Event}
    {seen : List Chain.Event} (h : Logged id x events) (hphase : x.phase.end? = none)
    (hseen : chainEvents id more = seen)
    (hrecorded : List.Forall₂ (fun states r => x.Reports id states none r)
      (snapshots x.states seen) (recorded id more)) :
    Logged id { x with phase := .running next, states := tracked x.states seen } (events ++ more) := by
  have hpointers : x.states = tracked [] (chainEvents id events) := by
    rw [h.pointers, hphase]
    rfl
  obtain ⟨opening, entries, closing, hrecords, hopening, hentries, hclosing⟩ := h.records
  have hnone : closing = [] := by rwa [Closes, hphase] at hclosing
  subst hnone
  constructor
  · rw [chainEvents_append, tracked_append, ← hpointers, hseen]
    rfl
  · refine ⟨opening, entries ++ recorded id more, [], ?_, hopening, ?_, rfl⟩
    · rw [recorded_append, hrecords]
      simp
    · rw [chainEvents_append, snapshots_append, ← hpointers, hseen]
      exact List.rel_append hentries hrecorded

/-- The execution ends: what chains are left makes no record, and the end makes the last one. -/
theorem Logged.settled {id : String} {x : Execution} {at_ : Instant} {outcome : Outcome}
    {events more : List Event} (h : Logged id x events) (hphase : x.phase.end? = none)
    (hleft : ∀ event ∈ chainEvents id more, ∃ b, event = .left b)
    (hrecorded : recorded id more =
      (Record.last? id x.started x.deadline at_ x.input [] at_ outcome).toList) :
    Logged id { x with states := [], phase := .finishing at_ outcome } (events ++ more) := by
  obtain ⟨opening, entries, closing, hrecords, hopening, hentries, hclosing⟩ := h.records
  have hnone : closing = [] := by rwa [Closes, hphase] at hclosing
  subst hnone
  refine ⟨rfl, opening, entries, recorded id more, ?_, hopening, ?_, at_, hrecorded⟩
  · rw [recorded_append, hrecords]
    simp
  · rw [chainEvents_append, snapshots_append, snapshots_of_left hleft, List.append_nil]
    exact hentries

theorem logs_settle {e : Engine} {id : String} {x : Execution} (hx : e.execution? id = some x)
    (hphase : x.phase.end? = none) (now : Instant) (outcome : Outcome) {left : List Chain.Event}
    (hleft : ∀ event ∈ left, ∃ b, event = .left b) (crash : Option Fault) (other : String) :
    Logs other e (e.settle now id x outcome left crash).1
      (e.settle now id x outcome left crash).2 := by
  obtain ⟨-, -, hseen⟩ := e.settle_spec now id x outcome left crash
  have htakes : (e.settle now id x outcome left crash).1.takes = e.takes :=
    takes_of_same (archive_persist _ _) (gates_settle e now id x outcome left crash)
  have hexecution := e.execution?_settle now id x outcome left crash
  by_cases hne : id = other
  · subst hne
    refine .of_put htakes hx ((hexecution id).trans (e.execution?_put_self id _))
      (.inl hphase) ?_
    intro hsome events hlogged
    refine hlogged.settled hphase ?_ (recorded_settle hsome now id x outcome left crash)
    rw [hseen, chainEvents_chain_self]
    exact hleft
  · refine .of_same htakes ?_ (recorded_settle_of_ne hne e now x outcome left crash) ?_
    · exact (hexecution other).trans (e.execution?_put_of_ne (Ne.symm hne) _)
    · rw [hseen, chainEvents_chain_of_ne hne]

mutual

/-- What is abandoned is left, and enters nothing. -/
theorem left_of_abandon (branch : String) : (c : Chain) →
    ∀ event ∈ c.abandon branch, ∃ b, event = Chain.Event.left b
  | .created m doc => by simp [Chain.abandon]
  | .ended r => by simp [Chain.abandon]
  | .forked stop branches => by
    rw [Chain.abandon]
    intro event hevent
    rcases List.mem_append.1 hevent with hevent | hevent
    · exact left_of_abandonAll branch stop.state 0 branches event hevent
    · exact left_of_leaving branch event hevent
  | .ready m name doc => left_of_leaving branch
  | .waiting stop seconds => left_of_leaving branch
  | .working stop call started => left_of_leaving branch

theorem left_of_abandonAll (parent state : String) (i : Nat) : (branches : List Chain) →
    ∀ event ∈ Chain.abandonAll parent state i branches, ∃ b, event = Chain.Event.left b
  | [] => by simp [Chain.abandonAll]
  | c :: rest => by
    rw [Chain.abandonAll]
    intro event hevent
    rcases List.mem_append.1 hevent with hevent | hevent
    · exact left_of_abandon _ c event hevent
    · exact left_of_abandonAll parent state (i + 1) rest event hevent

end

theorem Moves.logs {e after : Engine} {now : Instant} {move : Move} {events : List Event}
    (h : Moves e now move after events) (id : String) : Logs id e after events := by
  cases h with
  | @begin other x found phase =>
    by_cases hne : other = id
    · subst hne
      refine .of_put rfl found (e.execution?_put_self other _) (.inl (by rw [phase]; rfl)) ?_
      intro _ events hlogged
      exact hlogged.of_same rfl (by rw [phase]; rfl) rfl rfl rfl rfl rfl
    · exact .of_same rfl (e.execution?_put_of_ne (Ne.symm hne) _) rfl rfl
  | @chain other _ _ x y c next seen d events found phase made followed =>
    obtain ⟨-, -, -, hseen⟩ := e.follow_spec now other { x with phase := .running next } seen
    have htakes := takes_of_same (archive_follow e now other { x with phase := .running next } seen)
      (gates_follow e now other { x with phase := .running next } seen)
    have hexecution := execution?_follow e now other { x with phase := .running next } seen
    rw [followed] at hseen htakes hexecution
    by_cases hne : other = id
    · subst hne
      refine .of_put htakes found (d.execution?_put_self other y)
        (.inl (by rw [phase]; rfl)) ?_
      intro hsome before hlogged
      obtain ⟨hy, hrecords⟩ :=
        follow_records hsome now other { x with phase := .running next } seen
      rw [followed] at hy hrecords
      rw [show y = { x with phase := .running next, states := tracked x.states seen } from hy]
      apply hlogged.followed (by rw [phase]; rfl) _ hrecords
      rw [hseen, chainEvents_chain_self]
    · refine .of_same htakes ?_ ?_ ?_
      · exact (d.execution?_put_of_ne (Ne.symm hne) y).trans (hexecution id)
      · have hrecorded := recorded_follow_of_ne hne e now { x with phase := .running next } seen
        rwa [followed] at hrecorded
      · rw [hseen, chainEvents_chain_of_ne hne]
  | @settle other x r _ outcome _ found phase told settled =>
    have hleft : ∀ event ∈ ([] : List Chain.Event), ∃ b, event = .left b := by simp
    have hlogs := logs_settle found (by rw [phase]; rfl) now outcome hleft (crash? r) id
    rwa [settled] at hlogs
  | @expire other x c _ _ found phase unended suspended settled =>
    have hlogs := logs_settle found (by rw [phase]; rfl) now (.timedOut x.deadline)
      (left_of_abandon "" c) none id
    rwa [settled] at hlogs
  | @cancel other x c _ _ found phase closed unended suspended settled =>
    have hlogs := logs_settle found (by rw [phase]; rfl) now .cancelled (left_of_abandon "" c) none id
    rwa [settled] at hlogs
  | @withdraw other =>
    exact .of_same rfl rfl ((quiet_withdraw e other).recorded id)
      ((notes_withdraw e other).chainEvents id)
  | @write r rest a first archive =>
    refine .of_same ?_ rfl rfl rfl
    rw [takes, takes, archive]
    rfl
  | @release other x at_ outcome found phase gone =>
    have hquiet := Notes.chainEvents (e.notes_release other x at_ outcome)
    have hrecorded := (quiet_release e other x at_ outcome).recorded id
    by_cases hne : other = id
    · subst hne
      have hend : Phase.end? (.done at_ outcome) = x.phase.end? := by rw [phase]; rfl
      refine .of_put rfl found (execution?_put_self e other _) (.inr ⟨hrecorded, hend⟩) ?_
      intro _ events hlogged
      exact hlogged.of_same rfl hend rfl rfl rfl hrecorded (hquiet other)
    · exact .of_same rfl (e.execution?_put_of_ne (Ne.symm hne) _) hrecorded (hquiet id)

theorem logs_refl (id : String) (e : Engine) : Logs id e e [] := .of_same rfl rfl rfl rfl

/-- A new execution has made its first record. -/
theorem logged_register {e after : Engine} {now : Instant} {id : String} {m : Machine}
    {doc : Document} {deadline : Instant} {events more : List Event} (htakes : e.takes = true)
    (hrecorded : recorded id events = []) (hseen : chainEvents id events = [])
    (done : e.register now id m doc deadline = (after, more)) :
    ∃ x, after.execution? id = some x ∧ Logged id x (events ++ more) := by
  let x : Execution := ⟨m, doc, now, deadline, [], .scheduled, []⟩
  let d : Engine := { e.put id x with live := e.live ++ [id] }
  obtain ⟨hx, -, hnotes⟩ := register_spec done
  have hpersist : d.persist (some (x.record id now)) =
      ({ d with writing := d.writing ++ [x.record id now] }, [.recorded (x.record id now)]) :=
    persist_of_takes (e := d) htakes _
  have hmore : more = [.recorded (x.record id now), .started id deadline] := by
    have hsecond : (d.persist (some (x.record id now))).2 ++ [.started id deadline] = more :=
      congrArg Prod.snd done
    rw [← hsecond, hpersist]
    rfl
  refine ⟨x, ?_, ?_, ?_⟩
  · rw [execution?, hx]
    exact e.execution?_put_self id x
  · rw [chainEvents_append, hseen, hnotes.chainEvents]
    rfl
  · refine ⟨x.record id now, [], [], ?_, ⟨now, rfl⟩, ?_, rfl⟩
    · have hid : (x.record id now).executionId = id := rfl
      rw [recorded_append, hrecorded, hmore]
      simp [recorded, hid]
    · rw [chainEvents_append, hseen, hnotes.chainEvents]
      exact .nil

theorem takes_register {e after : Engine} {now : Instant} {id : String} {m : Machine}
    {doc : Document} {deadline : Instant} {more : List Event}
    (done : e.register now id m doc deadline = (after, more)) : after.takes = e.takes := by
  have hgates := gates_register done
  obtain ⟨rfl, -⟩ := persist_of_register done
  refine takes_of_same ?_ hgates
  rw [archive_persist]
  rfl

theorem logs_register_of_ne {e after : Engine} {now : Instant} {id other : String} {m : Machine}
    {doc : Document} {deadline : Instant} {more : List Event} (hne : other ≠ id)
    (done : e.register now other m doc deadline = (after, more)) : Logs id e after more := by
  obtain ⟨hx, -, hnotes⟩ := register_spec done
  obtain ⟨-, hmore⟩ := persist_of_register done
  refine .of_same (takes_register done) ?_ ?_ (hnotes.chainEvents id)
  · rw [execution?, hx]
    exact e.execution?_put_of_ne (Ne.symm hne) _
  · rw [← hmore, recorded_append, recorded_persist_of_ne hne _ executionId_of_record]
    rfl

theorem logs_addCallback {e after : Engine} {id other : String} {callback : Callback}
    {more : List Event} {raised : Option String}
    (done : e.addCallback other callback = some (after, more, raised)) : Logs id e after more := by
  obtain ⟨x, hx, ⟨rfl, outcome, -, rfl⟩ | ⟨rfl, -, rfl⟩⟩ := callback_of_addCallback done
  · exact .of_same rfl rfl rfl rfl
  · by_cases hne : other = id
    · subst hne
      refine .of_put rfl hx (e.execution?_put_self other _) (.inr ⟨rfl, rfl⟩) ?_
      intro _ events hlogged
      exact hlogged.of_same rfl rfl rfl rfl rfl rfl rfl
    · exact .of_same rfl (e.execution?_put_of_ne (Ne.symm hne) _) rfl rfl

/-- What is known of the log of one execution, whether it has been started or not. -/
structure Kept (e : Engine) (events : List Event) (id : String) : Prop where
  takes : e.takes = true
  absent : e.execution? id = none → recorded id events = []
  logged : ∀ x, e.execution? id = some x → Logged id x events

theorem Kept.logs {e after : Engine} {events more : List Event} {id : String}
    (h : Kept e events id) (logs : Logs id e after more) : Kept after (events ++ more) id := by
  refine ⟨logs.takes.trans h.takes, fun hnone => ?_, fun x hx => ?_⟩
  · cases hfound : e.execution? id with
    | none => rw [recorded_append, h.absent hfound, (logs.absent hfound).2, List.append_nil]
    | some y =>
      obtain ⟨z, hz, -⟩ := logs.logged h.takes y events hfound (h.logged y hfound)
      rw [hz] at hnone
      cases hnone
  · cases hfound : e.execution? id with
    | none =>
      rw [(logs.absent hfound).1] at hx
      cases hx
    | some y =>
      obtain ⟨z, hz, hlogged⟩ := logs.logged h.takes y events hfound (h.logged y hfound)
      obtain rfl := Option.some.inj (hx.symm.trans hz)
      exact hlogged

theorem Happens.logs {e after : Engine} {a : Action} {events : List Event} {id : String} {x : Execution}
    (h : Happens e a after events) (hx : e.execution? id = some x) (hgoes : a ≠ .stop) :
    Logs id e after events := by
  cases h with
  | @started now other machine input limit m doc deadline _ _ fresh prepared done =>
    have hne : other ≠ id := by
      rintro rfl
      rw [hx] at fresh
      cases fresh
    exact logs_register_of_ne hne done
  | refused done => exact logs_refl id e
  | moved honest done => exact (moves_of_step done).logs id
  | called done => exact logs_addCallback done
  | closed => exact .of_same rfl rfl rfl rfl
  | stopped => exact absurd rfl hgoes

/-- At any point of a run, as long as records are taken, the log of every execution is as its chains
tell. -/
theorem Run.kept {first e : Engine} {actions : List Action} {events : List Event} {id : String}
    (hrun : Run first actions e events) (hfirst : first.execution? id = none)
    (htakes : first.takes = true) (hgoes : .stop ∉ actions) : Kept e events id := by
  induction hrun with
  | rest =>
    refine ⟨htakes, fun _ => rfl, fun x hx => ?_⟩
    rw [hfirst] at hx
    cases hx
  | @next actions a d after events more before happens ih =>
    rw [List.mem_append, List.mem_singleton, not_or] at hgoes
    have hkept := ih hgoes.1
    cases happens with
    | @started now other machine input limit m doc deadline _ _ fresh prepared done =>
      by_cases hne : other = id
      · subst hne
        obtain ⟨-, told⟩ := before.told hfirst
        obtain ⟨x, hx, hlogged⟩ :=
          logged_register hkept.takes (hkept.absent fresh) (told.silent fresh) done
        refine ⟨(takes_register done).trans hkept.takes, fun hnone => ?_, fun y hy => ?_⟩
        · rw [hx] at hnone
          cases hnone
        · obtain rfl := Option.some.inj (hx.symm.trans hy)
          exact hlogged
      · exact hkept.logs (logs_register_of_ne hne done)
    | refused done => exact hkept.logs (logs_refl id d)
    | moved honest done => exact hkept.logs ((moves_of_step done).logs id)
    | called done => exact hkept.logs (logs_addCallback done)
    | closed => exact hkept.logs (.of_same rfl rfl rfl rfl)
    | stopped => exact absurd rfl hgoes.2

/-- Only what has been closed can be stopped. -/
theorem Run.goes_of_open {first e : Engine} {actions : List Action} {events : List Event}
    (hrun : Run first actions e events) (hfirst : first.closed = false) (hopen : .close ∉ actions) :
    .stop ∉ actions := by
  induction hrun with
  | rest => simp
  | @next actions a d after events more before happens ih =>
    rw [List.mem_append, List.mem_singleton, not_or] at hopen ⊢
    refine ⟨ih hopen.1, ?_⟩
    rintro rfl
    cases happens with
    | stopped closed =>
      rw [before.closed_eq_false hfirst hopen.1] at closed
      cases closed

end Engine

end ReminderFlow
