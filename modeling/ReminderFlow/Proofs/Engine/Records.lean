import ReminderFlow.Proofs.Engine.Moves

namespace ReminderFlow.Engine

/-- The records of an execution that were handed over for writing. -/
def recorded (id : String) (events : List Event) : List Record :=
  events.filterMap fun
    | .recorded r => if r.executionId = id then some r else none
    | _ => none

/-- The records of an execution that were written, or should have been. -/
def written (id : String) (events : List Event) : List Record :=
  events.filterMap fun
    | .written r _ => if r.executionId = id then some r else none
    | _ => none

/-- The records of an execution that were given up on their way. -/
def withdrawn (id : String) (events : List Event) : List Record :=
  events.filterMap fun
    | .withdrawn r => if r.executionId = id then some r else none
    | _ => none

/-- The records of an execution that are on their way to the store. -/
def queued (e : Engine) (id : String) : List Record := e.writing.filter fun r => r.executionId = id

/-- No record is handed over or written in the events. -/
def Quiet (events : List Event) : Prop :=
  ∀ event ∈ events, match event with
    | .recorded _ => False
    | .written _ _ => False
    | _ => True

theorem recorded_append (id : String) (before after : List Event) :
    recorded id (before ++ after) = recorded id before ++ recorded id after :=
  List.filterMap_append

theorem written_append (id : String) (before after : List Event) :
    written id (before ++ after) = written id before ++ written id after :=
  List.filterMap_append

theorem withdrawn_append (id : String) (before after : List Event) :
    withdrawn id (before ++ after) = withdrawn id before ++ withdrawn id after :=
  List.filterMap_append

theorem Quiet.recorded {events : List Event} (h : Quiet events) (id : String) :
    recorded id events = [] := by
  apply List.filterMap_eq_nil_iff.2
  intro event hevent
  cases event with
  | recorded r => exact (h _ hevent).elim
  | _ => rfl

theorem Quiet.written {events : List Event} (h : Quiet events) (id : String) :
    written id events = [] := by
  apply List.filterMap_eq_nil_iff.2
  intro event hevent
  cases event with
  | written r fault => exact (h _ hevent).elim
  | _ => rfl

theorem quiet_chain (id : String) (events : List Chain.Event) : Quiet (events.map (.chain id)) := by
  intro event hevent
  obtain ⟨inner, -, rfl⟩ := List.mem_map.1 hevent
  trivial

theorem Quiet.append {before after : List Event} (hb : Quiet before) (ha : Quiet after) :
    Quiet (before ++ after) := by
  intro event hevent
  rcases List.mem_append.1 hevent with hevent | hevent
  · exact hb event hevent
  · exact ha event hevent

theorem quiet_nil : Quiet [] := by
  intro event hevent
  cases hevent

theorem archive_persist (e : Engine) (r : Option Record) :
    (e.persist r).1.archive = e.archive := by
  obtain ⟨-, h⟩ | ⟨record, -, -, h⟩ | ⟨record, -, -, -, h⟩ := e.persist_cases r <;> rw [h]

theorem archive_follow (e : Engine) (now : Instant) (id : String) (x : Execution)
    (events : List Chain.Event) : (e.follow now id x events).1.archive = e.archive := by
  induction events generalizing e x with
  | nil => rfl
  | cons event rest ih =>
    cases event with
    | entered branch state type =>
      let y : Execution := { x with states := (Chain.Event.entered branch state type).track x.states }
      let r := some (y.record id now)
      exact (ih (e.persist r).1 y).trans (archive_persist e r)
    | _ => exact ih e _

/-- What was on its way and what came to it is what has been written and what is on its way now. -/
def Conserves (id : String) (e after : Engine) (more : List Event) : Prop :=
  written id more ++ after.queued id = e.queued id ++ recorded id more

theorem conserves_of_quiet {e after : Engine} {more : List Event} (hw : after.writing = e.writing)
    (h : Quiet more) (id : String) : Conserves id e after more := by
  rw [Conserves, h.written, h.recorded, List.append_nil, List.nil_append, queued, hw, queued]

theorem Conserves.trans {id : String} {e d after : Engine} {events more : List Event}
    (h : Conserves id e d events) (h' : Conserves id d after more) :
    Conserves id e after (events ++ more) := by
  unfold Conserves at h h' ⊢
  calc written id (events ++ more) ++ after.queued id
      = written id events ++ (written id more ++ after.queued id) := by
        rw [written_append, List.append_assoc]
    _ = (written id events ++ d.queued id) ++ recorded id more := by
        rw [h', List.append_assoc]
    _ = e.queued id ++ recorded id (events ++ more) := by
        rw [h, recorded_append, List.append_assoc]

theorem conserves_persist (e : Engine) (r : Option Record) (other : String) :
    Conserves other e (e.persist r).1 (e.persist r).2 := by
  obtain ⟨-, h⟩ | ⟨record, -, -, h⟩ | ⟨record, -, -, -, h⟩ := e.persist_cases r
  · rw [h]
    exact conserves_of_quiet rfl quiet_nil other
  · rw [h]
    refine conserves_of_quiet rfl (fun event hevent => ?_) other
    rw [List.mem_singleton.1 hevent]
    trivial
  · rw [h]
    by_cases hr : record.executionId = other <;> simp [Conserves, queued, recorded, written, hr]

theorem conserves_follow (e : Engine) (now : Instant) (id : String) (x : Execution)
    (events : List Chain.Event) (other : String) :
    Conserves other e (e.follow now id x events).1 (e.follow now id x events).2.2 := by
  induction events generalizing e x with
  | nil => exact conserves_of_quiet rfl quiet_nil other
  | cons event rest ih =>
    have hhead (d : Engine) (y : Execution) : Conserves other d (d.follow now id y rest).1
        (.chain id event :: (d.follow now id y rest).2.2) :=
      (conserves_of_quiet rfl (quiet_chain id [event]) other).trans (ih d y)
    cases event with
    | entered branch state type =>
      let y : Execution := { x with states := (Chain.Event.entered branch state type).track x.states }
      let r := some (y.record id now)
      exact (conserves_persist e r other).trans (hhead (e.persist r).1 y)
    | _ => exact hhead e _

theorem conserves_settle (e : Engine) (now : Instant) (id : String) (x : Execution)
    (outcome : Outcome) (left : List Chain.Event) (crash : Option Fault) (other : String) :
    Conserves other e (e.settle now id x outcome left crash).1
      (e.settle now id x outcome left crash).2 := by
  let y : Execution := { x with states := [], phase := .finishing now outcome }
  have hquiet : Quiet (left.map (.chain id) ++ [.settled id outcome crash]) := by
    apply (quiet_chain id left).append
    intro event hevent
    rw [List.mem_singleton.1 hevent]
    trivial
  have hput : Conserves other e (e.put id y)
      (left.map (.chain id) ++ [.settled id outcome crash]) := conserves_of_quiet rfl hquiet other
  have hall := hput.trans (conserves_persist (e.put id y) (y.record? id now) other)
  rwa [List.append_assoc] at hall

theorem quiet_release (e : Engine) (id : String) (x : Execution) (at_ : Instant)
    (outcome : Outcome) : Quiet (e.release id x at_ outcome).2 := by
  intro event hevent
  rcases List.mem_cons.1 hevent with rfl | hevent
  · trivial
  · obtain ⟨c, -, hevent⟩ := List.mem_flatMap.1 hevent
    rcases List.mem_cons.1 hevent with rfl | hevent
    · trivial
    · obtain ⟨report, -, rfl⟩ := List.mem_map.1 hevent
      trivial

theorem quiet_withdraw (e : Engine) (id : String) : Quiet (e.withdraw id).2 := by
  intro event hevent
  obtain ⟨r, -, rfl⟩ := List.mem_map.1 hevent
  trivial

/-- All but what gives up records conserves them. -/
theorem Moves.conserves {e after : Engine} {now : Instant} {move : Move} {events : List Event}
    (h : Moves e now move after events) (hmove : ∀ other, move ≠ .withdraw other) (id : String) :
    Conserves id e after events := by
  cases h with
  | begin found phase => exact conserves_of_quiet rfl quiet_nil id
  | @chain other _ _ x y c next seen d events found phase made followed =>
    have hfollow := conserves_follow e now other { x with phase := .running next } seen id
    rw [followed] at hfollow
    exact hfollow
  | @settle other x r _ outcome _ found phase told settled =>
    have hsettle := conserves_settle e now other x outcome [] (crash? r) id
    rwa [settled] at hsettle
  | @expire other x c _ _ found phase unended suspended settled =>
    have hsettle := conserves_settle e now other x (.timedOut x.deadline) (c.abandon "") none id
    rwa [settled] at hsettle
  | @cancel other x c _ _ found phase closed unended suspended settled =>
    have hsettle := conserves_settle e now other x .cancelled (c.abandon "") none id
    rwa [settled] at hsettle
  | @withdraw other => exact absurd rfl (hmove other)
  | @write r rest a first archive =>
    by_cases hr : r.executionId = id
    · simp [Conserves, queued, recorded, written, first, hr]
    · simp [Conserves, queued, recorded, written, first, hr]
  | @release other x at_ outcome found phase gone =>
    exact conserves_of_quiet rfl (quiet_release e other x at_ outcome) id

/-- Records are given up only once the engine is closed. -/
theorem Moves.ne_withdraw {e after : Engine} {now : Instant} {move : Move} {events : List Event}
    (h : Moves e now move after events) (hopen : e.closed = false) (other : String) :
    move ≠ .withdraw other := by
  rintro rfl
  cases h with
  | withdraw found phase closed =>
    rw [hopen] at closed
    cases closed

theorem conserves_register {e after : Engine} {now deadline : Instant} {id : String} {m : Machine}
    {doc : Document} {events : List Event}
    (done : e.register now id m doc deadline = (after, events)) (other : String) :
    Conserves other e after events := by
  obtain ⟨rfl, rfl⟩ := persist_of_register done
  let x : Execution := ⟨m, doc, now, deadline, [], .scheduled, []⟩
  have hput : Conserves other e { e.put id x with live := e.live ++ [id] } [] :=
    conserves_of_quiet rfl quiet_nil other
  refine (hput.trans (conserves_persist _ _ other)).trans (conserves_of_quiet rfl ?_ other)
  intro event hevent
  rw [List.mem_singleton.1 hevent]
  trivial

theorem conserves_addCallback {e after : Engine} {id : String} {callback : Callback}
    {events : List Event} {raised : Option String}
    (done : e.addCallback id callback = some (after, events, raised)) (other : String) :
    Conserves other e after events := by
  obtain ⟨x, -, ⟨rfl, outcome, -, rfl⟩ | ⟨rfl, -, rfl⟩⟩ := callback_of_addCallback done
  · refine conserves_of_quiet rfl (fun event hevent => ?_) other
    rw [List.mem_singleton.1 hevent]
    trivial
  · exact conserves_of_quiet rfl quiet_nil other

theorem Happens.conserves {e after : Engine} {a : Action} {events : List Event}
    (h : Happens e a after events) (ha : ∀ now other, a ≠ .move now (.withdraw other))
    (id : String) : Conserves id e after events := by
  cases h with
  | started fresh prepared done => exact conserves_register done id
  | refused done => exact conserves_of_quiet rfl quiet_nil id
  | @moved now move _ _ honest done =>
    exact (moves_of_step done).conserves (fun other heq => ha now other (congrArg _ heq)) id
  | called done => exact conserves_addCallback done id
  | closed => exact conserves_of_quiet rfl quiet_nil id
  | stopped => exact conserves_of_quiet rfl quiet_nil id

theorem Happens.ne_withdraw {e after : Engine} {a : Action} {events : List Event}
    (h : Happens e a after events) (hopen : e.closed = false) (now : Instant) (other : String) :
    a ≠ .move now (.withdraw other) := by
  rintro rfl
  cases h with
  | moved honest done => exact (moves_of_step done).ne_withdraw hopen other rfl

/-- As long as the engine is not closed, no record gets lost or overtaken by another one. -/
theorem Run.conserved {first e : Engine} {actions : List Action} {events : List Event}
    (hrun : Run first actions e events) (hfirst : first.closed = false) (hopen : .close ∉ actions)
    (id : String) :
    written id events ++ e.queued id = first.queued id ++ recorded id events := by
  induction hrun with
  | rest => exact conserves_of_quiet rfl quiet_nil id
  | @next actions a d after seen more before happens ih =>
    have hbefore : .close ∉ actions := fun hmem => hopen (List.mem_append_left _ hmem)
    have hconserved : Conserves id first d seen := ih hbefore
    have hopened := before.closed_eq_false hfirst hbefore
    exact hconserved.trans (happens.conserves (happens.ne_withdraw hopened) id)

/-- If nothing was on its way at first, then what has been written and what is on its way are
together what has been handed over, in this order. -/
theorem Run.written_append_queued {first e : Engine} {actions : List Action} {events : List Event}
    {id : String} (hrun : Run first actions e events) (hfirst : first.closed = false)
    (hopen : .close ∉ actions) (hempty : first.queued id = []) :
    written id events ++ e.queued id = recorded id events := by
  have hconserved := hrun.conserved hfirst hopen id
  rwa [hempty] at hconserved

end ReminderFlow.Engine
