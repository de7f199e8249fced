import ReminderFlow.Proofs.Engine.Found
import ReminderFlow.Proofs.Engine.Offers
import ReminderFlow.Proofs.Engine.Scheduler

namespace ReminderFlow

/-- Whether the record tells how its execution ended. -/
def Record.isLast (r : Record) : Bool := r.completedAt.isSome

namespace Engine

/-- No record is given up in the events. -/
def Undrawn (events : List Event) : Prop := ∀ r, .withdrawn r ∉ events

theorem Undrawn.withdrawn {events : List Event} (h : Undrawn events) (id : String) :
    withdrawn id events = [] := by
  apply List.filterMap_eq_nil_iff.2
  intro event hevent
  cases event with
  | withdrawn r => exact (h r hevent).elim
  | _ => rfl

theorem Undrawn.append {before after : List Event} (hb : Undrawn before) (ha : Undrawn after) :
    Undrawn (before ++ after) := by
  intro r hmem
  rcases List.mem_append.1 hmem with hmem | hmem
  · exact hb r hmem
  · exact ha r hmem

theorem undrawn_nil : Undrawn [] := by
  intro r hmem
  cases hmem

theorem undrawn_chain (id : String) (events : List Chain.Event) :
    Undrawn (events.map (.chain id)) := by
  intro r hmem
  obtain ⟨inner, -, heq⟩ := List.mem_map.1 hmem
  cases heq

theorem undrawn_persist (e : Engine) (r : Option Record) : Undrawn (e.persist r).2 := by
  intro r' hmem
  obtain ⟨-, h⟩ | ⟨record, -, -, h⟩ | ⟨record, -, -, -, h⟩ := e.persist_cases r <;>
    rw [h] at hmem <;> simp at hmem

theorem undrawn_follow (e : Engine) (now : Instant) (id : String) (x : Execution)
    (events : List Chain.Event) : Undrawn (e.follow now id x events).2.2 := by
  induction events generalizing e x with
  | nil => exact undrawn_nil
  | cons event rest ih =>
    have hhead (d : Engine) (y : Execution) :
        Undrawn (.chain id event :: (d.follow now id y rest).2.2) :=
      (undrawn_chain id [event]).append (ih d y)
    cases event with
    | entered branch state type =>
      let y : Execution := { x with states := (Chain.Event.entered branch state type).track x.states }
      exact (undrawn_persist e (some (y.record id now))).append (hhead _ _)
    | _ => exact hhead e _

theorem undrawn_settle (e : Engine) (now : Instant) (id : String) (x : Execution)
    (outcome : Outcome) (left : List Chain.Event) (crash : Option Fault) :
    Undrawn (e.settle now id x outcome left crash).2 := by
  let y : Execution := { x with states := [], phase := .finishing now outcome }
  have hsettled : Undrawn [.settled id outcome crash] := by
    intro r hmem
    cases List.mem_singleton.1 hmem
  have hrest := hsettled.append (undrawn_persist (e.put id y) (y.record? id now))
  exact (undrawn_chain id left).append hrest

theorem undrawn_release (e : Engine) (id : String) (x : Execution) (at_ : Instant)
    (outcome : Outcome) : Undrawn (e.release id x at_ outcome).2 := by
  intro r hmem
  rcases List.mem_cons.1 hmem with heq | hmem
  · cases heq
  · obtain ⟨c, -, hmem⟩ := List.mem_flatMap.1 hmem
    rcases List.mem_cons.1 hmem with heq | hmem
    · cases heq
    · obtain ⟨report, -, heq⟩ := List.mem_map.1 hmem
      cases heq

theorem Moves.undrawn {e after : Engine} {now : Instant} {move : Move} {events : List Event}
    (h : Moves e now move after events) (hmove : ∀ other, move ≠ .withdraw other) :
    Undrawn events := by
  cases h with
  | begin => exact undrawn_nil
  | @chain id _ _ x y c next seen d _ found phase made followed =>
    have hfollow := undrawn_follow e now id { x with phase := .running next } seen
    rwa [followed] at hfollow
  | @settle id x r _ outcome _ found phase told settled =>
    have hsettle := undrawn_settle e now id x outcome [] (crash? r)
    rwa [settled] at hsettle
  | @expire id x c _ _ found phase unended suspended settled =>
    have hsettle := undrawn_settle e now id x (.timedOut x.deadline) (c.abandon "") none
    rwa [settled] at hsettle
  | @cancel id x c _ _ found phase closed unended suspended settled =>
    have hsettle := undrawn_settle e now id x .cancelled (c.abandon "") none
    rwa [settled] at hsettle
  | @withdraw other => exact absurd rfl (hmove other)
  | write =>
    intro r' hmem
    cases List.mem_singleton.1 hmem
  | release => exact undrawn_release e _ _ _ _

theorem Happens.undrawn {e after : Engine} {a : Action} {events : List Event}
    (h : Happens e a after events) (ha : ∀ now other, a ≠ .move now (.withdraw other)) :
    Undrawn events := by
  cases h with
  | started fresh prepared done =>
    obtain ⟨-, rfl⟩ := persist_of_register done
    refine (undrawn_persist _ _).append fun r hmem => ?_
    cases List.mem_singleton.1 hmem
  | refused done => exact undrawn_nil
  | @moved now move _ _ honest done =>
    exact (moves_of_step done).undrawn fun other heq => ha now other (congrArg _ heq)
  | called done =>
    obtain ⟨x, -, ⟨rfl, outcome, -, rfl⟩ | ⟨rfl, -, rfl⟩⟩ := callback_of_addCallback done
    · intro r hmem
      cases List.mem_singleton.1 hmem
    · exact undrawn_nil
  | closed => exact undrawn_nil
  | stopped => exact undrawn_nil

/-- What has become of the records of an execution: only last records are given up, and but for
these the records are written in their order. -/
structure Accounts (id : String) (e after : Engine) (more : List Event) : Prop where
  running : (written id more ++ after.queued id).filter (!Record.isLast ·) =
    (e.queued id ++ recorded id more).filter (!Record.isLast ·)
  lasts : (written id more ++ after.queued id).countP Record.isLast + (withdrawn id more).length =
    (e.queued id ++ recorded id more).countP Record.isLast
  kept : withdrawn id more = [] → Conserves id e after more

theorem Conserves.accounts {id : String} {e after : Engine} {more : List Event}
    (h : Conserves id e after more) (hnone : withdrawn id more = []) : Accounts id e after more := by
  have hsame : written id more ++ after.queued id = e.queued id ++ recorded id more := h
  exact ⟨by rw [hsame], by rw [hsame, hnone, List.length_nil, add_zero], fun _ => h⟩

theorem Accounts.trans {id : String} {e d after : Engine} {events more : List Event}
    (h : Accounts id e d events) (h' : Accounts id d after more) :
    Accounts id e after (events ++ more) := by
  obtain ⟨hrunning, hlasts, hkept⟩ := h
  obtain ⟨hrunning', hlasts', hkept'⟩ := h'
  simp only [List.filter_append, List.countP_append] at hrunning hrunning' hlasts hlasts'
  refine ⟨?_, ?_, fun hnone => ?_⟩
  · simp only [written_append, recorded_append, List.filter_append]
    rw [List.append_assoc, hrunning', ← List.append_assoc, hrunning, List.append_assoc]
  · simp only [written_append, recorded_append, withdrawn_append, List.countP_append,
      List.length_append]
    omega
  · rw [withdrawn_append, List.append_eq_nil_iff] at hnone
    exact (hkept hnone.1).trans (hkept' hnone.2)

theorem isLastRecord_eq (id : String) (r : Record) :
    isLastRecord id r = (decide (r.executionId = id) && r.isLast) := rfl

theorem queued_withdraw_self (e : Engine) (id : String) :
    (e.withdraw id).1.queued id = (e.queued id).filter (!Record.isLast ·) := by
  simp only [queued, withdraw, List.filter_filter]
  apply List.filter_congr
  intro r _
  rw [isLastRecord_eq]
  cases decide (r.executionId = id) <;> simp

theorem queued_withdraw_of_ne {id other : String} (hne : other ≠ id) (e : Engine) :
    (e.withdraw other).1.queued id = e.queued id := by
  simp only [queued, withdraw, List.filter_filter]
  apply List.filter_congr
  intro r _
  by_cases hr : r.executionId = id
  · have hother : r.executionId ≠ other := fun heq => hne (heq.symm.trans hr)
    simp [isLastRecord, hr, Ne.symm hne]
  · simp [hr]

theorem withdrawn_withdraw_self (e : Engine) (id : String) :
    withdrawn id (e.withdraw id).2 = (e.queued id).filter Record.isLast := by
  have hall : ∀ r ∈ e.writing.filter (isLastRecord id),
      (if r.executionId = id then some r else none) = some r := by
    intro r hr
    have hlast := (List.mem_filter.1 hr).2
    rw [isLastRecord_eq, Bool.and_eq_true, decide_eq_true_eq] at hlast
    exact if_pos hlast.1
  have hwithdrawn : withdrawn id (e.withdraw id).2 =
      (e.writing.filter (isLastRecord id)).filterMap
        fun r => if r.executionId = id then some r else none := List.filterMap_map
  rw [hwithdrawn, List.filterMap_congr hall, List.filterMap_some, queued, List.filter_filter]
  apply List.filter_congr
  intro r _
  rw [isLastRecord_eq, Bool.and_comm]

theorem withdrawn_withdraw_of_ne {id other : String} (hne : other ≠ id) (e : Engine) :
    withdrawn id (e.withdraw other).2 = [] := by
  apply List.filterMap_eq_nil_iff.2
  intro event hevent
  obtain ⟨r, hr, rfl⟩ := List.mem_map.1 hevent
  have hlast := (List.mem_filter.1 hr).2
  rw [isLastRecord_eq, Bool.and_eq_true, decide_eq_true_eq] at hlast
  have hid : r.executionId ≠ id := fun heq => hne (hlast.1.symm.trans heq)
  simp [hid]

theorem accounts_withdraw (e : Engine) (id other : String) :
    Accounts id e (e.withdraw other).1 (e.withdraw other).2 := by
  have hquiet := quiet_withdraw e other
  by_cases hne : other = id
  · subst hne
    constructor
    · rw [hquiet.written, hquiet.recorded, List.nil_append, List.append_nil, queued_withdraw_self,
        List.filter_filter]
      simp
    · rw [hquiet.written, hquiet.recorded, List.nil_append, List.append_nil, queued_withdraw_self,
        withdrawn_withdraw_self, ← List.countP_eq_length_filter, List.countP_filter]
      simp
    · intro hnone
      rw [withdrawn_withdraw_self, List.filter_eq_nil_iff] at hnone
      rw [Conserves, hquiet.written, hquiet.recorded, List.nil_append, List.append_nil,
        queued_withdraw_self, List.filter_eq_self]
      exact fun r hr => by simpa using hnone r hr
  · refine Conserves.accounts ?_ (withdrawn_withdraw_of_ne hne e)
    rw [Conserves, hquiet.written, hquiet.recorded, List.nil_append, List.append_nil,
      queued_withdraw_of_ne hne]

theorem Happens.accounts {e after : Engine} {a : Action} {events : List Event}
    (h : Happens e a after events) (id : String) : Accounts id e after events := by
  by_cases hwithdraw : ∃ now other, a = .move now (.withdraw other)
  · obtain ⟨now, other, rfl⟩ := hwithdraw
    cases h with
    | moved honest done =>
      cases moves_of_step done with
      | withdraw => exact accounts_withdraw e id other
  · have ha : ∀ now other, a ≠ .move now (.withdraw other) :=
      fun now other heq => hwithdraw ⟨now, other, heq⟩
    exact (h.conserves ha id).accounts ((h.undrawn ha).withdrawn id)

theorem Run.accounts {first e : Engine} {actions : List Action} {events : List Event}
    (hrun : Run first actions e events) (id : String) : Accounts id first e events := by
  induction hrun with
  | rest => exact (conserves_of_quiet rfl quiet_nil id).accounts rfl
  | next before happens ih => exact ih.trans (happens.accounts id)

/-- As long as the engine is open nothing is given up. -/
theorem Run.withdrawn_eq_nil {first e : Engine} {actions : List Action} {events : List Event}
    (hrun : Run first actions e events) (hfirst : first.closed = false) (hopen : .close ∉ actions)
    (id : String) : withdrawn id events = [] := by
  induction hrun with
  | rest => rfl
  | @next actions a d after seen more before happens ih =>
    have hbefore : .close ∉ actions := fun hmem => hopen (List.mem_append_left _ hmem)
    have hopened := before.closed_eq_false hfirst hbefore
    rw [withdrawn_append, ih hbefore, (happens.undrawn (happens.ne_withdraw hopened)).withdrawn]
    rfl

/-- The log of any execution: records that tell that it runs, and then the last one if it has ended
with a plain outcome. -/
theorem Logged.parts {id : String} {x : Execution} {events : List Event} (h : Logged id x events) :
    ∃ running closing, recorded id events = running ++ closing ∧ running ≠ [] ∧
      (∀ r ∈ running, ∃ states, x.RunningRecord id states r) ∧
      ((∃ r at_ outcome, closing = [r] ∧ x.phase.end? = some (at_, outcome) ∧ outcome.IsPlain ∧
          x.LastRecord id at_ outcome r) ∨
        closing = [] ∧ ∀ at_ outcome, x.phase.end? = some (at_, outcome) → ¬outcome.IsPlain) := by
  cases hend : x.phase.end? with
  | none =>
    obtain ⟨opening, entries, closing, hrecords, hopening, hentries, hclosing⟩ := h.records
    rw [Closes, hend] at hclosing
    subst hclosing
    refine ⟨opening :: entries, [], hrecords, List.cons_ne_nil _ _, fun r hr => ?_,
      .inr ⟨rfl, by simp⟩⟩
    rcases List.mem_cons.1 hr with rfl | hr
    · exact ⟨[], hopening.runningRecord⟩
    · obtain ⟨states, -, hreports⟩ := exists_of_mem_right hentries hr
      exact ⟨states, hreports.runningRecord⟩
  | some end_ =>
    obtain ⟨at_, outcome⟩ := end_
    obtain ⟨running, closing, hrecords, hne, hrunning, hplain, hnone⟩ := h.split hend
    refine ⟨running, closing, hrecords, hne, hrunning, ?_⟩
    by_cases hp : outcome.IsPlain
    · obtain ⟨r, rfl, hr⟩ := hplain hp
      exact .inl ⟨r, at_, outcome, rfl, rfl, hp, hr⟩
    · refine .inr ⟨hnone hp, fun at' outcome' heq => ?_⟩
      cases heq
      exact hp

theorem isLast_of_running {id : String} {x : Execution} {states : List (String × String)} {r : Record}
    (h : x.RunningRecord id states r) : r.isLast = false := by
  rw [Record.isLast, h.completedAt]
  rfl

/-- If a last record has been given up and nothing is on its way any more, then what has been written
are the records before the last one. -/
theorem Accounts.written_of_withdrawn {first e : Engine} {id : String} {events : List Event}
    (h : Accounts id first e events) (hempty : first.queued id = []) (hqueued : e.queued id = [])
    {running closing : List Record} (hrecords : recorded id events = running ++ closing)
    (hrunning : ∀ r ∈ running, r.isLast = false) (hclosing : ∀ r ∈ closing, r.isLast = true)
    (hone : closing.length ≤ 1) (hsome : withdrawn id events ≠ []) :
    written id events = running := by
  obtain ⟨hsame, hlasts, -⟩ := h
  rw [hqueued, hempty, List.append_nil, List.nil_append] at hsame hlasts
  have hopen : running.countP Record.isLast = 0 := by
    refine List.countP_eq_zero.2 fun r hr => ?_
    rw [hrunning r hr]
    exact Bool.false_ne_true
  have hshut : closing.filter (!Record.isLast ·) = [] := by
    refine List.filter_eq_nil_iff.2 fun r hr => ?_
    rw [hclosing r hr]
    exact Bool.false_ne_true
  have hfew : (recorded id events).countP Record.isLast ≤ 1 := by
    rw [hrecords, List.countP_append, hopen, zero_add]
    exact List.countP_le_length.trans hone
  -- as one of them has been given up, no last record has been written
  have hpos : 0 < (withdrawn id events).length := List.length_pos_iff.2 hsome
  have hunwritten : ∀ r ∈ written id events, (!r.isLast) = true := by
    intro r hr
    have hzero : (written id events).countP Record.isLast = 0 := by omega
    simpa using List.countP_eq_zero.1 hzero r hr
  have hkept : ∀ r ∈ running, (!r.isLast) = true := fun r hr => by rw [hrunning r hr, Bool.not_false]
  rwa [List.filter_eq_self.2 hunwritten, hrecords, List.filter_append, hshut, List.append_nil,
    List.filter_eq_self.2 hkept] at hsame

/-- Once nothing is on its way any more, what has been written last tells how the execution ended,
or that it runs if the outcome is not plain or a record has been given up. -/
theorem Accounts.last_written {first e : Engine} {id : String} {x : Execution}
    {events : List Event} (h : Accounts id first e events) (hlogged : Logged id x events)
    (hempty : first.queued id = []) (hwriting : e.writing = []) :
    ∃ r, (written id events).getLast? = some r ∧ r ∈ recorded id events ∧
      ((∃ at_ outcome, x.phase.end? = some (at_, outcome) ∧ outcome.IsPlain ∧
          withdrawn id events = [] ∧ x.LastRecord id at_ outcome r) ∨
        (∃ states, x.RunningRecord id states r) ∧ (withdrawn id events = [] →
          ∀ at_ outcome, x.phase.end? = some (at_, outcome) → ¬outcome.IsPlain)) := by
  obtain ⟨running, closing, hrecords, hne, hrunning, hclosing⟩ := hlogged.parts
  have hqueued : e.queued id = [] := by rw [queued, hwriting]; rfl
  -- if what has been written are the records of its running, then the last of these is the latest
  have hruns (hwritten : written id events = running) :
      ∃ r, (written id events).getLast? = some r ∧ r ∈ recorded id events ∧
        ∃ states, x.RunningRecord id states r := by
    obtain ⟨r, hlast⟩ := Option.isSome_iff_exists.1 (List.getLast?_isSome.2 hne)
    have hmem := List.mem_of_getLast? hlast
    exact ⟨r, hwritten ▸ hlast, hrecords ▸ List.mem_append_left _ hmem, hrunning r hmem⟩
  by_cases hnone : withdrawn id events = []
  · have hwritten : written id events = running ++ closing := by
      have hconserved : written id events ++ e.queued id = first.queued id ++ recorded id events :=
        h.kept hnone
      rw [hqueued, hempty, List.append_nil, List.nil_append] at hconserved
      exact hconserved.trans hrecords
    obtain ⟨r, at_, outcome, rfl, hend, hplain, hr⟩ | ⟨rfl, hnever⟩ := hclosing
    · refine ⟨r, by rw [hwritten, List.getLast?_concat], ?_, .inl ⟨at_, outcome, hend, hplain, hnone, hr⟩⟩
      rw [hrecords]
      exact List.mem_append_right _ (List.mem_singleton_self r)
    · rw [List.append_nil] at hwritten
      obtain ⟨r, hlast, hmem, hstates⟩ := hruns hwritten
      exact ⟨r, hlast, hmem, .inr ⟨hstates, fun _ => hnever⟩⟩
  · have hopen : ∀ r ∈ running, r.isLast = false := by
      intro r hr
      obtain ⟨states, hstates⟩ := hrunning r hr
      exact isLast_of_running hstates
    have hlast : (∀ r ∈ closing, r.isLast = true) ∧ closing.length ≤ 1 := by
      obtain ⟨r, at_, outcome, rfl, -, -, hr⟩ | ⟨rfl, -⟩ := hclosing
      · refine ⟨fun r' hr' => ?_, le_rfl⟩
        rw [List.mem_singleton.1 hr', Record.isLast, hr.completedAt]
        rfl
      · exact ⟨List.forall_mem_nil _, Nat.zero_le 1⟩
    obtain ⟨r, hlast, hmem, hstates⟩ :=
      hruns (h.written_of_withdrawn hempty hqueued hrecords hopen hlast.1 hlast.2 hnone)
    exact ⟨r, hlast, hmem, .inr ⟨hstates, fun hnil => absurd hnil hnone⟩⟩

/-- The run that goes on after the engine has been closed. -/
theorem Run.append_closing {first e d : Engine} {actions more : List Action}
    {events shown : List Event} (hrun : Run first actions e events)
    (hclosing : Run e.close more d shown) :
    Run first (actions ++ [.close] ++ more) d (events ++ shown) := by
  have hclosed := hrun.next .closed
  rw [List.append_nil] at hclosed
  exact hclosed.append hclosing

/-- What the store has of an execution once nothing is on its way any more. -/
theorem Run.record_by_closing {registry : Registry} {a : Archive} {retention : Nat}
    {actions more : List Action} {e d : Engine} {events shown : List Event} {id : String}
    {x : Execution} (hrun : Run (make registry (some a) retention) actions e events)
    (hopen : .close ∉ actions) (hclosing : Run e.close more d shown) (hgoes : .stop ∉ more)
    (hwrites : AllWritten (events ++ shown)) (hx : d.execution? id = some x)
    (hwriting : d.writing = []) :
    ∃ r, d.HasRecord id r ∧
      ((∃ at_ outcome, x.phase.end? = some (at_, outcome) ∧ outcome.IsPlain ∧
          withdrawn id shown = [] ∧ x.LastRecord id at_ outcome r) ∨
        (∃ states, x.RunningRecord id states r) ∧ (withdrawn id shown = [] →
          ∀ at_ outcome, x.phase.end? = some (at_, outcome) → ¬outcome.IsPlain)) := by
  have hnew : (make registry (some a) retention).execution? id = none := rfl
  have hall := hrun.append_closing hclosing
  have hgoes' : .stop ∉ actions ++ [.close] ++ more := by
    simp [hrun.goes_of_open rfl hopen, hgoes]
  have hlogged := (hall.kept hnew rfl hgoes').logged x hx
  have hshown : withdrawn id (events ++ shown) = withdrawn id shown := by
    rw [withdrawn_append, hrun.withdrawn_eq_nil rfl hopen, List.nil_append]
  obtain ⟨r, hlast, hmem, hrecord⟩ := (hall.accounts id).last_written hlogged rfl hwriting
  rw [hshown] at hrecord
  rw [← hwrites.stored] at hlast
  exact ⟨r, hall.hasRecord hlast (hlogged.isProper (hall.holdsProper hnew hx) hmem), hrecord⟩

/-- Without the loop, executions stay as they are but for callbacks that are added, and new ones are
not taken up. -/
structure Lingers (e after : Engine) : Prop where
  archive : after.archive = e.archive
  stays : ∀ id x, e.execution? id = some x →
    ∃ callbacks, after.execution? id = some { x with callbacks := callbacks }
  waits : ∀ id x, e.execution? id = none → after.execution? id = some x → x.phase = .scheduled

theorem lingers_of_same {e after : Engine} (archive : after.archive = e.archive)
    (executions : after.executions = e.executions) : Lingers e after := by
  have hsame (id : String) : after.execution? id = e.execution? id := by
    rw [execution?, executions, execution?]
  refine ⟨archive, fun id x hx => ⟨x.callbacks, (hsame id).trans hx⟩, fun id x hnone hx => ?_⟩
  cases hnone.symm.trans ((hsame id).symm.trans hx)

theorem Lingers.trans {e d after : Engine} (h : Lingers e d) (h' : Lingers d after) :
    Lingers e after := by
  refine ⟨h'.archive.trans h.archive, fun id x hx => ?_, fun id x hnone hx => ?_⟩
  · obtain ⟨callbacks, hd⟩ := h.stays id x hx
    obtain ⟨others, hafter⟩ := h'.stays id _ hd
    exact ⟨others, hafter⟩
  · cases hd : d.execution? id with
    | none => exact h'.waits id x hd hx
    | some y =>
      obtain ⟨callbacks, hafter⟩ := h'.stays id y hd
      obtain rfl := Option.some.inj (hafter.symm.trans hx)
      exact h.waits id y hnone hd

theorem Happens.lingers {e after : Engine} {a : Action} {events : List Event}
    (h : Happens e a after events) (hdead : ∀ now move, a ≠ .move now move) : Lingers e after := by
  have hwaits : ∀ id x, e.execution? id = none → after.execution? id = some x →
      x.phase = .scheduled := by
    intro id x hnone hx
    obtain ⟨m, input, limit, doc, now, deadline, passed, -, -, rfl⟩ := h.starts hnone hx
    rfl
  cases h with
  | @started now id machine input limit m doc deadline _ _ fresh prepared done passed found =>
    obtain ⟨hexecutions, -⟩ := register_spec done
    obtain ⟨rfl, -⟩ := persist_of_register done
    refine ⟨archive_persist _ _, fun other x hx => ⟨x.callbacks, ?_⟩, hwaits⟩
    have hne : other ≠ id := by
      rintro rfl
      cases fresh.symm.trans hx
    rw [execution?, hexecutions]
    exact (execution?_put_of_ne _ hne _).trans hx
  | refused => exact lingers_of_same rfl rfl
  | moved => exact absurd rfl (hdead _ _)
  | @called id callback _ _ raised done =>
    obtain ⟨y, hy, ⟨rfl, -⟩ | ⟨rfl, -⟩⟩ := callback_of_addCallback done
    · exact lingers_of_same rfl rfl
    refine ⟨rfl, fun other x hx => ?_, hwaits⟩
    by_cases hne : other = id
    · subst hne
      obtain rfl := Option.some.inj (hy.symm.trans hx)
      exact ⟨_, execution?_put_self _ _ _⟩
    · exact ⟨x.callbacks, (execution?_put_of_ne _ hne _).trans hx⟩
  | closed => exact lingers_of_same rfl rfl
  | stopped => exact lingers_of_same rfl rfl

theorem Run.lingers {first e : Engine} {actions : List Action} {events : List Event}
    (hrun : Run first actions e events) (hdead : ∀ now move, .move now move ∉ actions) :
    Lingers first e := by
  induction hrun with
  | rest => exact lingers_of_same rfl rfl
  | @next actions a d after seen more before happens ih =>
    have hbefore : ∀ now move, .move now move ∉ actions :=
      fun now move hmem => hdead now move (List.mem_append_left _ hmem)
    refine (ih hbefore).trans (happens.lingers ?_)
    rintro now move rfl
    exact hdead now move (List.mem_append_right _ (List.mem_singleton_self _))

/-- How an execution stands once its engine, which had come to `e` before, has been closed and `f` is
what is left of it. -/
inductive Remains (e f : Engine) (actions : List Action) (shown : List Event) (id : String)
    (x : Execution) : Prop
  /-- It is done, with the outcome that it had when the engine was closed or with one that it has got
  since. The store has its last record, if the outcome is plain and that record has not been given up
  on its way, or else one that tells that it runs. -/
  | done {at_ : Instant} {outcome : Outcome} {r : Record} (phase : x.phase = .done at_ outcome)
      (terminal : outcome.status.isTerminal = true)
      (kept : ∀ y o, e.execution? id = some y → y.outcome? = some o → outcome = o)
      (stored : f.HasRecord id r)
      (last : outcome.IsPlain → withdrawn id shown = [] → x.LastRecord id at_ outcome r)
      (running : ¬(outcome.IsPlain ∧ withdrawn id shown = []) →
        ∃ states, x.RunningRecord id states r)
  /-- Its main chain has ended with what no outcome can tell. -/
  | mute {result : Except Failure Document} {r : Record} {states : List (String × String)}
      (phase : x.phase = .running (.ended result))
      (untold : Outcome.ofResult? x.deadline result = none) (stored : f.HasRecord id r)
      (running : x.RunningRecord id states r)
  /-- It came too late for the loop, as its start had found the engine open before it was closed. -/
  | lost (undone : x.phase.isDone = false)
      (raced : ∃ now machine input limit, .start now id machine input limit true ∈ actions)

theorem Run.closed_eq_true {first e : Engine} {actions : List Action} {events : List Event}
    (hrun : Run first actions e events) (hfirst : first.closed = true) : e.closed = true := by
  induction hrun with
  | rest => exact hfirst
  | @next actions a d after seen more before happens ih =>
    have hclosed := congrArg Prod.fst happens.gates
    change after.closed = _ at hclosed
    rw [hclosed, ih, Bool.true_or]

/-- An execution that has come to be on a closed engine was started by a start that had found the
engine open. -/
theorem Run.raced {first e : Engine} {actions : List Action} {events : List Event}
    (hrun : Run first actions e events) (hclosed : first.closed = true) {id : String} {x : Execution}
    (hnone : first.execution? id = none) (hx : e.execution? id = some x) :
    ∃ now machine input limit, .start now id machine input limit true ∈ actions := by
  induction hrun generalizing x with
  | rest => cases hnone.symm.trans hx
  | @next actions a d after seen more before happens ih =>
    cases hd : d.execution? id with
    | some y =>
      obtain ⟨now, machine, input, limit, hmem⟩ := ih hd
      exact ⟨now, machine, input, limit, List.mem_append_left _ hmem⟩
    | none =>
      obtain ⟨m, input, limit, doc, now, deadline, passed, rfl, -⟩ := happens.starts hd hx
      cases happens with
      | started fresh prepared done found =>
        obtain rfl := found.resolve_right (by simp [before.closed_eq_true hclosed])
        exact ⟨now, some m, input, limit, List.mem_append_right _ (List.mem_singleton_self _)⟩
      | refused => cases hd.symm.trans hx

theorem HasRecord.of_archive {e after : Engine} {id : String} {r : Record} (h : e.HasRecord id r)
    (archive : after.archive = e.archive) : after.HasRecord id r := by
  obtain ⟨hfile, hfound⟩ := h
  refine ⟨?_, archive ▸ hfound⟩
  rw [file?, archive]
  exact hfile

/-- An engine is closed: all executions that it has are brought to rest, no write fails and what was
on its way is written. Whatever else is done while it closes, and after its loop has stopped, every
execution is done, or its main chain has ended with what no outcome can tell, or it came too
late. -/
theorem Run.ends_by_closing {registry : Registry} {a : Archive} {retention : Nat}
    {actions more late : List Action} {e d f : Engine} {events shown last : List Event} {id : String}
    {x : Execution} (hrun : Run (make registry (some a) retention) actions e events)
    (hopen : .close ∉ actions) (hclosing : Run e.close more d shown) (hgoes : .stop ∉ more)
    (hrests : ∀ other, e.execution? other ≠ none → d.Rests other) (hwriting : d.writing = [])
    (hwrites : AllWritten (events ++ shown)) (hlate : Run d.stop late f last)
    (hdead : ∀ now move, .move now move ∉ late) (hx : f.execution? id = some x) :
    Remains e f (more ++ late) shown id x := by
  have hlingers := hlate.lingers hdead
  have hclosed : d.closed = true := hclosing.closed_eq_true rfl
  cases hd : d.execution? id with
  | none =>
    -- it was started when the loop had stopped
    have hphase := hlingers.waits id x hd hx
    obtain ⟨now, machine, input, limit, hmem⟩ := hlate.raced hclosed hd hx
    exact .lost (by rw [hphase]; rfl) ⟨now, machine, input, limit, List.mem_append_right _ hmem⟩
  | some y =>
    obtain ⟨callbacks, hf⟩ := hlingers.stays id y hd
    obtain rfl := Option.some.inj (hf.symm.trans hx)
    obtain ⟨r, hhas, hrecord⟩ := hrun.record_by_closing hopen hclosing hgoes hwrites hd hwriting
    have hstored : f.HasRecord id r := hhas.of_archive hlingers.archive
    have hdone {at_ : Instant} {outcome : Outcome} (hphase : y.phase = .done at_ outcome) :
        Remains e f (more ++ late) shown id { y with callbacks := callbacks } := by
      have hend : y.phase.end? = some (at_, outcome) := by rw [hphase]; rfl
      have hnew : (make registry (some a) retention).execution? id = none := rfl
      refine .done hphase ((hrun.append_closing hclosing).isTerminal hnew hd hend) (fun z o hz ho => ?_)
        hstored (fun hplain hnone => ?_) fun hnot => ?_
      · obtain ⟨z', hz', hoz, -⟩ := hclosing.outcome (show e.close.execution? id = some z from hz) ho
        obtain rfl := Option.some.inj (hd.symm.trans hz')
        exact Option.some.inj ((Execution.outcome?_of_end hend).symm.trans hoz)
      · obtain ⟨at', outcome', hend', -, -, hr⟩ | ⟨-, hnever⟩ := hrecord
        · cases hend.symm.trans hend'
          exact { hr with }
        · exact absurd hplain (hnever hnone at_ outcome hend)
      · obtain ⟨at', outcome', hend', hplain, hnone, -⟩ | ⟨⟨states, hstates⟩, -⟩ := hrecord
        · cases hend.symm.trans hend'
          exact absurd ⟨hplain, hnone⟩ hnot
        · exact ⟨states, { hstates with }⟩
    cases he : e.execution? id with
    | some z =>
      obtain ⟨result, hphase, htold⟩ | ⟨at_, outcome, hphase⟩ :=
        (hrests id (by rw [he]; exact Option.some_ne_none z)).phase hd
      · obtain ⟨at_, outcome, hend, -⟩ | ⟨⟨states, hstates⟩, -⟩ := hrecord
        · rw [hphase] at hend
          cases hend
        · exact .mute hphase htold hstored { hstates with }
      · exact hdone hphase
    | none =>
      cases hphase : y.phase.isDone with
      | true =>
        obtain ⟨at_, outcome, hphase⟩ := phase_of_isDone hphase
        exact hdone hphase
      | false =>
        -- it was started while the engine was closing
        obtain ⟨now, machine, input, limit, hmem⟩ := hclosing.raced rfl he hd
        exact .lost hphase ⟨now, machine, input, limit, List.mem_append_left _ hmem⟩

/-- An execution that the loop has nothing more to do with is at rest. -/
theorem rests_of_not_isBusy {e : Engine} {id : String} (hwriting : e.writing = [])
    (h : ∀ x, e.execution? id = some x → Scheduler.isBusy x = false) : e.Rests id := by
  refine ⟨fun now move hsubject => ?_, hwriting⟩
  cases hx : e.execution? id with
  | none => cases move <;> cases hsubject <;> simp [step, hx]
  | some x =>
    have hidle := h x hx
    cases hphase : x.phase with
    | done at_ o => cases move <;> cases hsubject <;> simp [step, hx, hphase]
    | running c =>
      cases c with
      | ended r =>
        simp only [Scheduler.isBusy, hphase, Option.isSome_eq_false_iff, Option.isNone_iff_eq_none]
          at hidle
        cases move with
        | chain other address inner =>
          cases hsubject
          rw [← Option.not_isSome_iff_eq_none, step_chain hx hphase, Chain.isSome_stepAt_iff]
          rintro ⟨d, hat, hturn⟩
          cases address with
          | nil =>
            cases hat
            cases hturn
          | cons => cases hat
        | _ => cases hsubject <;> simp [step, hx, hphase, hidle, Chain.result?]
      | _ => simp [Scheduler.isBusy, hphase] at hidle
    | _ => simp [Scheduler.isBusy, hphase] at hidle

theorem Plays.takes {e after : Engine} (h : Plays e after) : after.takes = e.takes := by
  obtain ⟨actions, events, hrun, hmoves⟩ := h
  induction hrun with
  | rest => rfl
  | next before happens ih =>
    obtain ⟨hbefore, hlast⟩ := List.forall_mem_append.1 hmoves
    obtain ⟨now, m, rfl⟩ := hlast _ (List.mem_singleton.2 rfl)
    cases happens with
    | moved honest done => exact ((moves_of_step done).logs "").takes.trans (ih hbefore)

/-- Records on their way are written whether new ones are taken or not. -/
theorem step_write_stop (e : Engine) (now : Instant) :
    e.stop.step now .write = (e.step now .write).map fun next => (next.1.stop, next.2) := by
  obtain ⟨registry, retention, archive, executions, live, finished, writing, closed, shut⟩ := e
  cases writing <;> cases archive <;> rfl

end Engine

namespace Scheduler

open Engine (Plays)

variable {s : Scheduler}

theorem record_stop (s : Scheduler) :
    record { s with engine := s.engine.stop } =
      { s.record with engine := s.record.engine.stop } := by
  have hmove (t : Scheduler) : Scheduler.move { t with engine := t.engine.stop } .write =
      (t.move .write).map fun after => { after with engine := after.engine.stop } := by
    simp only [Scheduler.move, instant, Engine.step_write_stop, Option.map_map]
    rfl
  have hwriting : s.engine.stop.writing = s.engine.writing := rfl
  simp only [record, hwriting]
  rw [hmove { s with writer := none }]
  cases Scheduler.move { s with writer := none } .write with
  | none => cases s.engine.writing <;> rfl
  | some after =>
    cases s.engine.writing with
    | nil => rfl
    | cons r rest =>
      simp only [Option.map_some]
      split_ifs <;> rfl

theorem drain_stop (n : Nat) (s : Scheduler) :
    drain n { s with engine := s.engine.stop } =
      { drain n s with engine := (drain n s).engine.stop } := by
  induction n generalizing s with
  | zero => rfl
  | succ n ih => rw [drain, record_stop, ih]; rfl

/-- The first record is written, and if it was the last one of its execution, that is to be
released. -/
theorem record_eq {r : Record} {rest : List Record} {a : Archive}
    (hwriting : s.engine.writing = r :: rest) (ha : s.engine.archive = some a) :
    let after := ({ s with
      writer := none
      engine := { s.engine with writing := rest, archive := some (Engine.write a r).1 } }).see
        [.written r (Engine.write a r).2]
    s.record = if r.completedAt.isSome then after.soon (.release r.executionId) else after := by
  intro after
  have hstep : s.engine.step s.instant .write =
      some ({ s.engine with writing := rest, archive := some (Engine.write a r).1 },
        [.written r (Engine.write a r).2]) := by
    simp only [Engine.step, hwriting, ha]
  have hmove : Scheduler.move { s with writer := none } .write = some after := by
    simp only [Scheduler.move, instant] at hstep ⊢
    rw [hstep]
    rfl
  simp only [record, hwriting]
  rw [hmove]

theorem record_spec (s : Scheduler) (harchive : s.engine.archive.isSome = true) :
    s.record.engine.writing = s.engine.writing.tail ∧ s.record.engine.archive.isSome = true ∧
      s.record.engine.executions = s.engine.executions := by
  obtain ⟨a, ha⟩ := Option.isSome_iff_exists.1 harchive
  cases hwriting : s.engine.writing with
  | nil => simp [record, hwriting, harchive]
  | cons r rest =>
    rw [record_eq hwriting ha]
    split_ifs <;> exact ⟨rfl, rfl, rfl⟩

theorem drain_spec (n : Nat) (s : Scheduler) (harchive : s.engine.archive.isSome = true) :
    (drain n s).engine.writing = s.engine.writing.drop n ∧
      (drain n s).engine.executions = s.engine.executions := by
  induction n generalizing s with
  | zero => exact ⟨rfl, rfl⟩
  | succ n ih =>
    obtain ⟨hwriting, harchive', hexecutions⟩ := s.record_spec harchive
    obtain ⟨hrest, hsame⟩ := ih s.record harchive'
    rw [drain]
    refine ⟨?_, hsame.trans hexecutions⟩
    rw [hrest, hwriting, List.drop_tail]

theorem Sound.drain (h : s.Sound) (n : Nat) : Works s (drain n s) := by
  induction n generalizing s with
  | zero => exact h.works
  | succ n ih => exact h.record.trans (ih h.record.sound)

/-- The engine that closing leaves behind is one on which nothing is left to be done: everything
that was ready before has been taken up, every execution has come to its end, and what was on its
way has been written. -/
theorem rests_of_close? (h : s.Sound) (hopen : s.engine.closed = false)
    (htakes : s.engine.takes = true) {after : Scheduler} (done : s.close? = some after) :
    ∃ d, Plays s.engine.close d ∧ after.engine = d.stop ∧ ∀ id, d.Rests id := by
  have hclosed : Sound { s with engine := s.engine.close, ready := s.ready ++ [.cancelAll] } := by
    refine ⟨fun a ha => (h.awaited a ha).of_same rfl rfl, h.distinct, fun m hm => ?_, h.timers⟩
    rcases List.mem_append.1 hm with hm | heq
    · exact h.ready m hm
    · cases List.mem_singleton.1 heq
  obtain ⟨hpasses, -⟩ := hclosed.waitFor isCancelled closingTime
  simp only [close?, hopen, if_neg Bool.false_ne_true] at done
  generalize waitFor { s with engine := s.engine.close, ready := s.ready ++ [.cancelAll] }
    isCancelled closingTime = waited at hpasses done
  split_ifs at done with hcancelled
  cases done
  -- what is left when nothing goes on any more, before the last records are written
  let idle : Scheduler := { waited with ready := [], timers := [], queued := [], answers := [] }
  have hidle : idle.Sound := by
    refine ⟨fun a ha => hpasses.sound.awaited a (List.mem_append_right _ ha), ?_, by simp [idle],
      by simp [idle]⟩
    have hdistinct := hpasses.sound.distinct
    rw [pending, List.map_append] at hdistinct
    exact (List.nodup_append.1 hdistinct).2.1
  have hworks := hidle.drain waited.engine.writing.length
  have harchive : idle.engine.archive.isSome = true := by
    have htakes' : waited.engine.takes = true := hpasses.plays.takes.trans htakes
    exact (Bool.and_eq_true_iff.1 htakes').1
  obtain ⟨hwriting, hexecutions⟩ := drain_spec waited.engine.writing.length idle harchive
  refine ⟨(drain waited.engine.writing.length idle).engine, hpasses.plays.trans hworks.plays, ?_,
    fun id => ?_⟩
  · exact congrArg Scheduler.engine (drain_stop waited.engine.writing.length idle)
  · refine Engine.rests_of_not_isBusy ?_ fun x hx => ?_
    · rw [hwriting]
      exact List.drop_length
    · have hmem : (id, x) ∈ waited.engine.executions := by
        refine Members.mem_of_lookup ?_
        rw [← hexecutions]
        exact hx
      rw [isCancelled, Bool.and_eq_true, List.all_eq_true] at hcancelled
      simpa using hcancelled.2 _ hmem

end Scheduler

namespace Engine

/-- A fork one branch of which has ended while the other one sleeps. -/
def dozing : Option (List Action × Engine × List Event) :=
  performNew ⟨0⟩ "d"
    (.mk "Fork"
      [("Fork", .parallel
        [.mk "Rest" [("Rest", .succeed)] "", .mk "Nap" [("Nap", .wait .null (.int 30) .null)] ""] []
        .null)]
      "")
    (.dict []) (.int 60)
    [.move (.begin "d"), .move (.chain "d" [] .enter), .move (.chain "d" [0] .begin),
      .move (.chain "d" [1] .begin), .move (.chain "d" [1] .enter), .move .write,
      .move (.chain "d" [0] .enter)]
    (make ⟨[]⟩ (some ⟨.empty .usual, fun _ => false⟩) 0)

/-- A schedule that goes on with an engine which has been closed. -/
def performClosed (now : Instant) (choices : List Choice)
    (run : Option (List Action × Engine × List Event)) :
    Option (List Action × Engine × List Event) :=
  run.bind fun run => perform now choices run.2.1.close

theorem Run.of_performClosed {now : Instant} {choices : List Choice}
    {run closing : List Action × Engine × List Event}
    (h : performClosed now choices (some run) = some closing) :
    Run run.2.1.close closing.1 closing.2.1 closing.2.2 ∧ .stop ∉ closing.1 := by
  have hperform : Engine.perform now choices run.2.1.close = some (closing.1, closing.2.1, closing.2.2) := h
  refine ⟨Run.rest.perform hperform, fun hmem => ?_⟩
  obtain ⟨move, heq⟩ := moves_of_perform hperform _ hmem
  cases heq

def wakened : Option (List Action × Engine × List Event) :=
  performClosed ⟨9⟩ ([.move (.cancel "d")] ++ List.replicate 4 (.move .write) ++
    [.move (.release "d")]) dozing

/-- What is to be checked of a closed engine: nothing is left to be done, and no write has failed. -/
def isOver (run closing : List Action × Engine × List Event) : Bool :=
  closing.2.1.executions.all (fun p => !Scheduler.isBusy p.2) && closing.2.1.writing.isEmpty &&
    (run.2.2 ++ closing.2.2).all fun event => !event.isFault

theorem rests_of_isOver {run closing : List Action × Engine × List Event}
    (h : isOver run closing = true) : AllWritten (run.2.2 ++ closing.2.2) ∧
      closing.2.1.writing = [] ∧ ∀ id, closing.2.1.Rests id := by
  simp only [isOver, Bool.and_eq_true, List.isEmpty_iff] at h
  obtain ⟨⟨hidle, hwriting⟩, hall⟩ := h
  refine ⟨allWritten_of_all hall, hwriting, fun id => rests_of_not_isBusy hwriting fun x hx => ?_⟩
  simpa using List.all_eq_true.1 hidle _ (Members.mem_of_lookup hx)

/-- A start that has found the engine open and comes when the loop has stopped. -/
theorem exists_belated {e : Engine} {id : String} (fresh : e.execution? id = none) :
    ∃ late f last y, Run e late f last ∧ (∀ now move, .move now move ∉ late) ∧
      f.execution? id = some y ∧ y.phase = .scheduled := by
  let rest : Machine := .mk "Rest" [("Rest", .succeed)] ""
  have hcomputed : (prepare ⟨9⟩ (some rest) (.dict []) (.int 60)).toOption.isSome = true := by
    decide +kernel
  obtain ⟨⟨m, doc, deadline⟩, hprepared⟩ :
      ∃ parts, prepare ⟨9⟩ (some rest) (.dict []) (.int 60) = .ok parts := by
    cases hprepare : prepare ⟨9⟩ (some rest) (.dict []) (.int 60) with
    | ok parts => exact ⟨parts, rfl⟩
    | error e =>
      rw [hprepare] at hcomputed
      cases hcomputed
  obtain ⟨f, last, hregister⟩ : ∃ f last, e.register ⟨9⟩ id m doc deadline = (f, last) := ⟨_, _, rfl⟩
  have hlate := Run.rest.next (.started fresh hprepared hregister (.inl rfl))
  refine ⟨_, f, _, ⟨m, doc, ⟨9⟩, deadline, [], .scheduled, []⟩, hlate, fun now move hmem => ?_, ?_, rfl⟩
  · cases List.mem_singleton.1 hmem
  · obtain ⟨hexecutions, -⟩ := register_spec hregister
    rw [execution?, hexecutions]
    exact execution?_put_self _ _ _

theorem ends_by_closing_dozing :
    ∃ actions e events more d shown late f last x at_ outcome r y, dozing = some (actions, e, events) ∧
      wakened = some (more, d, shown) ∧ .close ∉ actions ∧ Run e.close more d shown ∧
      .stop ∉ more ∧ (∀ other, d.Rests other) ∧ d.writing = [] ∧ AllWritten (events ++ shown) ∧
      Run d.stop late f last ∧ (∀ now move, .move now move ∉ late) ∧
      f.execution? "d" = some x ∧ x.phase = .done at_ outcome ∧
      outcome.error = .str "States.Cancelled" ∧ f.HasRecord "d" r ∧ x.LastRecord "d" at_ outcome r ∧
      f.execution? "late" = some y ∧ y.phase = .scheduled := by
  have hcomputed : dozing.any (fun run => wakened.any fun closing =>
      isOver run closing && (withdrawn "d" closing.2.2).isEmpty &&
        (closing.2.1.execution? "late").isNone && (closing.2.1.execution? "d").any fun x =>
          x.phase.isDone && x.outcome?.any fun o =>
            Record.textOrNull o.error = some (some "States.Cancelled") ∧
              (Record.textOrNull o.cause).isSome) = true := by
    decide +kernel
  obtain ⟨⟨actions, e, events⟩, hsome, hrest⟩ := (Option.any_eq_true _ _).1 hcomputed
  obtain ⟨⟨more, d, shown⟩, hclosed, hrest⟩ := (Option.any_eq_true _ _).1 hrest
  simp only [Bool.and_eq_true, List.isEmpty_iff, Option.isNone_iff_eq_none] at hrest
  obtain ⟨⟨⟨hover, hnone⟩, hfresh⟩, hany⟩ := hrest
  obtain ⟨hwrites, hwriting, hrests⟩ := rests_of_isOver hover
  obtain ⟨y, hy, hany⟩ := (Option.any_eq_true _ _).1 hany
  obtain ⟨hdone, hany⟩ := Bool.and_eq_true_iff.1 hany
  obtain ⟨at_, outcome, hphase⟩ := phase_of_isDone hdone
  have ho : y.outcome? = some outcome := Execution.outcome?_of_end (by rw [hphase]; rfl)
  rw [ho, Option.any_some, decide_eq_true_eq] at hany
  obtain ⟨herror, hcause⟩ := hany
  have hplain : outcome.IsPlain :=
    ⟨Value.isTextOrNull_iff.2 ⟨_, herror⟩, Value.isTextOrNull_iff.2 (Option.isSome_iff_exists.1 hcause)⟩
  obtain ⟨hclosing, hstop⟩ : Run e.close more d shown ∧ .stop ∉ more := by
    rw [wakened, hsome] at hclosed
    exact Run.of_performClosed hclosed
  have hopen := not_closed_of_performNew hsome
  obtain ⟨late, f, last, z, hlate, hdead, hz, hscheduled⟩ :=
    exists_belated (show d.stop.execution? "late" = none from hfresh)
  obtain ⟨callbacks, hx⟩ := (hlate.lingers hdead).stays "d" y hy
  cases (Run.of_performNew rfl hsome).ends_by_closing hopen hclosing hstop (fun id _ => hrests id)
    hwriting hwrites hlate hdead hx with
  | @done at' outcome' r hdone' terminal kept stored lasts running =>
    cases hphase.symm.trans hdone'
    exact ⟨actions, e, events, more, d, shown, late, f, last, _, at_, outcome, r, z, hsome, hclosed,
      hopen, hclosing, hstop, hrests, hwriting, hwrites, hlate, hdead, hx, hphase,
      (Execution.optional_of_textOrNull herror).symm, stored, lasts hplain hnone, hz, hscheduled⟩
  | mute running => cases hphase.symm.trans running
  | lost undone =>
    rw [hphase] at undone
    cases undone

/-- An execution that a Fail state has ended with a number for its error, before it is done. -/
def breaking : Option (List Action × Engine × List Event) :=
  performNew ⟨0⟩ "b" (.mk "Stop" [("Stop", .fail .null (.int 5))] "") (.dict []) (.int 60)
    [.move (.begin "b"), .move .write, .move (.chain "b" [] .enter), .move .write, .move (.settle "b")]
    (make ⟨[]⟩ (some ⟨.empty .usual, fun _ => false⟩) 0)

/-- Closing leaves no record of its outcome. -/
theorem breaking_keeps_running :
    ¬∀ (registry : Registry) (a : Archive) (retention : Nat) (actions more : List Action)
        (e d : Engine) (events shown : List Event) (id : String) (x : Execution),
      Run (make registry (some a) retention) actions e events → .close ∉ actions →
      Run e.close more d shown → .stop ∉ more →
      (∀ other, e.execution? other ≠ none → d.Rests other) → d.writing = [] →
      AllWritten (events ++ shown) → d.execution? id = some x →
      ∃ at_ outcome r a', x.phase = .done at_ outcome ∧ outcome.status.isTerminal = true ∧
        d.archive = some a' ∧ a'.store.get id = .ok (some r) ∧ r.completedAt.isSome = true ∧
        r.status = outcome.status.name := by
  intro hclaim
  have hcomputed : breaking.any (fun run =>
      (performClosed ⟨9⟩ [.move (.release "b")] breaking).any fun closing =>
        isOver run closing && (closing.2.1.execution? "b").any fun x => x.outcome?.any fun o =>
          (Record.textOrNull o.error).isNone) = true := by
    decide +kernel
  obtain ⟨⟨actions, e, events⟩, hsome, hrest⟩ := (Option.any_eq_true _ _).1 hcomputed
  obtain ⟨⟨more, d, shown⟩, hclosed, hrest⟩ := (Option.any_eq_true _ _).1 hrest
  obtain ⟨hover, hany⟩ := Bool.and_eq_true_iff.1 hrest
  obtain ⟨hwrites, hwriting, hrests⟩ := rests_of_isOver hover
  obtain ⟨hclosing, hstop⟩ : Run e.close more d shown ∧ .stop ∉ more := by
    rw [hsome] at hclosed
    exact Run.of_performClosed hclosed
  have hopen := not_closed_of_performNew hsome
  have hrun := Run.of_performNew rfl hsome
  obtain ⟨x, hx, hany⟩ := (Option.any_eq_true _ _).1 hany
  obtain ⟨o, ho, hany⟩ := (Option.any_eq_true _ _).1 hany
  have hnot : ¬o.IsPlain := Outcome.not_isPlain_of_isNone hany
  obtain ⟨r, hhas, hrecord⟩ := hrun.record_by_closing hopen hclosing hstop hwrites hx hwriting
  obtain ⟨at_, outcome, r', a, hphase, -, ha, hget, hcompleted, -⟩ :=
    hclaim _ _ _ _ _ _ _ _ _ _ _ hrun hopen hclosing hstop (fun id _ => hrests id) hwriting hwrites hx
  obtain ⟨at', outcome', hend, hplain, -⟩ | ⟨⟨states, hstates⟩, -⟩ := hrecord
  · cases ho.symm.trans (Execution.outcome?_of_end hend)
    exact hnot hplain
  · rw [hhas.eq_of_get ha hget, hstates.completedAt] at hcompleted
    cases hcompleted

end Engine

end ReminderFlow
