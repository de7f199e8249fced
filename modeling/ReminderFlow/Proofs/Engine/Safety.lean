import ReminderFlow.Proofs.Engine.Schedule
import ReminderFlow.Proofs.Engine.Story
import ReminderFlow.Proofs.Run.Crash

namespace ReminderFlow.Engine

/-- None of the events tells of an execution that has ended by a crash. -/
def Calm (events : List Event) : Prop :=
  ∀ id outcome fault, Event.settled id outcome (some fault) ∉ events

theorem calm_nil : Calm [] := by
  intro id outcome k h
  cases h

theorem Calm.append {before after : List Event} (hb : Calm before) (ha : Calm after) :
    Calm (before ++ after) := by
  intro id outcome k h
  rcases List.mem_append.1 h with h | h
  · exact hb id outcome k h
  · exact ha id outcome k h

theorem Notes.calm {events : List Event} (h : Notes events) : Calm events :=
  fun _ _ _ hmem => h _ hmem

theorem calm_follow (e : Engine) (now : Instant) (id : String) (x : Execution)
    (events : List Chain.Event) : Calm (e.follow now id x events).2.2 := by
  induction events generalizing e x with
  | nil => exact calm_nil
  | cons event rest ih =>
    obtain ⟨d, records, -, -, hnotes, heq⟩ := e.follow_cons now id x event rest
    rw [heq]
    apply hnotes.calm.append
    intro other outcome k h
    rcases List.mem_cons.1 h with heq | h
    · cases heq
    · exact ih _ _ other outcome k h

theorem calm_chain (id : String) (events : List Chain.Event) : Calm (events.map (.chain id)) := by
  intro other outcome k h
  obtain ⟨event, -, heq⟩ := List.mem_map.1 h
  cases heq

/-- Settling tells of a crash only if it is given one. -/
theorem mem_settle {e : Engine} {now : Instant} {id : String} {x : Execution} {outcome : Outcome}
    {left : List Chain.Event} {crash : Option Fault} {other : String} {told : Outcome} {fault : Fault}
    (h : Event.settled other told (some fault) ∈ (e.settle now id x outcome left crash).2) :
    other = id ∧ told = outcome ∧ crash = some fault := by
  rw [settle] at h
  rcases List.mem_append.1 h with h | h
  · exact absurd h (calm_chain id left other told fault)
  · rcases List.mem_cons.1 h with heq | h
    · cases heq
      exact ⟨rfl, rfl, rfl⟩
    · exact ((persist_spec _ _).2.2.calm other told fault h).elim

theorem calm_settle (e : Engine) (now : Instant) (id : String) (x : Execution) (outcome : Outcome)
    (left : List Chain.Event) : Calm (e.settle now id x outcome left none).2 := by
  intro other told k h
  obtain ⟨-, -, hnone⟩ := mem_settle h
  cases hnone

/-- The main chain has crashed with a fault that is told as unforeseen. -/
structure Unforeseen (x : Execution) (outcome : Outcome) (fault : Fault) (k : Crash) : Prop where
  phase : x.phase = .running (.ended (.error (.crash k)))
  raised : k.fault = fault
  told : ∃ cause, fault.cause = .ok cause ∧
    outcome = .failed (.str Outcome.runtimeCode) (.str cause)

theorem unforeseen_of_crash? {x : Execution} {r : Except Failure Document} {outcome : Outcome}
    {fault : Fault} (phase : x.phase = .running (.ended r))
    (told : Outcome.ofResult? x.deadline r = some outcome) (h : crash? r = some fault) :
    ∃ k, Unforeseen x outcome fault k := by
  unfold crash? at h
  split at h
  case h_2 => cases h
  case h_1 k =>
    change Outcome.ofFault? x.deadline k.fault = some outcome at told
    unfold Outcome.ofFault? at told
    split at h
    · cases h
    · cases h
    · rename_i htimeout hexecution
      cases h
      split at told
      · rename_i hfamily
        exact absurd hfamily htimeout
      · rename_i error cause hfamily
        exact absurd hfamily (hexecution error cause)
      · obtain ⟨cause, hcause, rfl⟩ := Option.map_eq_some_iff.1 told
        have hok : k.fault.cause = .ok cause := by
          cases hk : k.fault.cause with
          | ok text =>
            rw [hk] at hcause
            rw [Option.some.inj hcause]
          | error other =>
            rw [hk] at hcause
            cases hcause
        exact ⟨k, phase, rfl, cause, hok, rfl⟩

/-- An execution is settled by a fault only when its main chain has crashed with it. -/
theorem Moves.unforeseen {e after : Engine} {now : Instant} {move : Move} {events : List Event}
    (done : Moves e now move after events) {id : String} {outcome : Outcome} {fault : Fault}
    (h : .settled id outcome (some fault) ∈ events) :
    ∃ x k, e.execution? id = some x ∧ Unforeseen x outcome fault k := by
  cases done with
  | begin => cases h
  | @chain other _ _ x y c next seen _ _ found phase made followed =>
    have hcalm := calm_follow e now other { x with phase := .running next } seen
    rw [followed] at hcalm
    exact (hcalm _ _ _ h).elim
  | @settle other x r _ told _ found phase tells settled =>
    obtain ⟨rfl, rfl, hcrash⟩ := mem_settle (e := e) (x := x) (h := by rw [settled]; exact h)
    obtain ⟨k, hk⟩ := unforeseen_of_crash? phase tells hcrash
    exact ⟨x, k, found, hk⟩
  | @expire other x c _ _ found phase unended suspended settled =>
    have hcalm := calm_settle e now other x (.timedOut x.deadline) (c.abandon "")
    rw [settled] at hcalm
    exact (hcalm _ _ _ h).elim
  | @cancel other x c _ _ found phase closed unended suspended settled =>
    have hcalm := calm_settle e now other x .cancelled (c.abandon "")
    rw [settled] at hcalm
    exact (hcalm _ _ _ h).elim
  | withdraw => exact ((notes_withdraw _ _).calm _ _ _ h).elim
  | write => cases List.mem_singleton.1 h
  | release => exact ((notes_release _ _ _ _ _).calm _ _ _ h).elim

theorem Happens.unforeseen {e after : Engine} {a : Action} {events : List Event}
    (happens : Happens e a after events) {id : String} {outcome : Outcome} {fault : Fault}
    (h : .settled id outcome (some fault) ∈ events) :
    ∃ x k, e.execution? id = some x ∧ Unforeseen x outcome fault k := by
  cases happens with
  | started fresh prepared done => exact ((register_spec done).2.2.calm _ _ _ h).elim
  | refused => cases h
  | moved honest done => exact (moves_of_step done).unforeseen h
  | called done =>
    obtain ⟨x, hx, ⟨rfl, _, -, rfl⟩ | ⟨rfl, -, rfl⟩⟩ := callback_of_addCallback done
    · cases List.mem_singleton.1 h
    · cases h
  | closed => cases h
  | stopped => cases h

/-- Where in a run an execution is settled by a fault. -/
theorem Run.before_fault {first e : Engine} {actions : List Action} {events : List Event}
    (hrun : Run first actions e events) {id : String} {outcome : Outcome} {fault : Fault}
    (h : .settled id outcome (some fault) ∈ events) :
    ∃ earlier d seen x k, earlier <+: actions ∧ seen <+: events ∧ Run first earlier d seen ∧
      d.execution? id = some x ∧ Unforeseen x outcome fault k := by
  induction hrun with
  | rest => cases h
  | @next actions a e after events more before happens ih =>
    rcases List.mem_append.1 h with h | h
    · obtain ⟨earlier, d, seen, x, k, hearlier, hseen, hrest⟩ := ih h
      exact ⟨earlier, d, seen, x, k, hearlier.trans (List.prefix_append ..),
        hseen.trans (List.prefix_append ..), hrest⟩
    · obtain ⟨x, k, hx, hk⟩ := happens.unforeseen h
      exact ⟨actions, e, events, x, k, List.prefix_append .., List.prefix_append .., before, hx, hk⟩

/-- Every machine that is started has been read from JSON. -/
def AllRead (actions : List Action) : Prop :=
  ∀ now id m input limit passed, .start now id (some m) input limit passed ∈ actions →
    ∃ v, Machine.ofJson v = .ok m

theorem sound_start {actions : List Action} (hread : AllRead actions) {id : String} {x : Execution}
    (h : Started actions id x) : Chain.Sound (.ready x.machine x.machine.start x.input) := by
  obtain ⟨now, input, limit, passed, hmem, -⟩ := h
  obtain ⟨v, hv⟩ := hread _ _ _ _ _ _ hmem
  have haccepted := Machine.accepted_of_ofJson v hv
  exact .ready haccepted haccepted.locallyWellFormed.start

/-- In the course of an execution one of its chains has crashed by itself, by entering a wait that
is too long or whose time cannot be shown, or by a reply that cannot be told or read. -/
inductive Broke (registry : Registry) (x : Execution) (k : Crash) (last : Chain) :
    List Chain.Event → Prop
  | intro {before step after : List Chain.Event} {c next : Chain} (first : x.Runs registry before c)
      (breaks : Chain.Breaks registry.contains registry.MayReply "" k c step next)
      (further : Chain.Course registry.contains registry.MayReply "" next after last) :
      Broke registry x k last (before ++ (step ++ after))

theorem broke_of_runs {actions : List Action} (hread : AllRead actions) {id : String} {x : Execution}
    (hstarted : Started actions id x) {registry : Registry} {seen : List Chain.Event} {c : Chain}
    (hruns : x.Runs registry seen c) {k : Crash} (hcrashed : c.Crashed k) :
    Broke registry x k c seen := by
  have hfine : ¬(Chain.ready x.machine x.machine.start x.input).Crashed k := by
    rintro ⟨_ | ⟨i, rest⟩, hat⟩ <;> cases hat
  obtain ⟨before, step, after, d, next, rfl, hbefore, hbreaks, hafter⟩ :=
    Chain.breaks_of_course (sound_start hread hstarted) hfine hruns hcrashed
  exact .intro hbefore hbreaks hafter

/-- However the executors behave, every chain of every execution is guarded at every point of a run;
a chain has crashed only if one has crashed by itself before, and an execution is reported as failed
unforeseen only if its main chain has crashed so. -/
theorem Run.never_goes_wrong {registry : Registry} {archive : Option Archive} {retention : Nat}
    {actions : List Action} (hread : AllRead actions) {e : Engine} {events : List Event}
    (hrun : Run (make registry archive retention) actions e events) :
    (∀ id x c address d, e.execution? id = some x → x.phase = .running c →
      c.at? address = some d → d.Guarded) ∧
    (∀ id x c k, e.execution? id = some x → x.phase = .running c → c.Crashed k →
      Broke registry x k c (chainEvents id events)) ∧
    (∀ id outcome fault, .settled id outcome (some fault) ∈ events →
      ∃ x k seen, Started actions id x ∧ Unforeseen x outcome fault k ∧
        Broke registry x k (.ended (.error (.crash k))) seen ∧ seen <+: chainEvents id events) := by
  have hfresh (id : String) : (make registry archive retention).execution? id = none := rfl
  refine ⟨fun id x c address d hx hphase hat => ?_, fun id x c k hx hphase hcrashed => ?_, ?_⟩
  · obtain ⟨-, told⟩ := hrun.told (hfresh id)
    have hsound := Chain.sound_course (sound_start hread (told.started x hx))
      ((told.story x hx).runs hphase)
    exact (hsound.at? hat).guarded
  · obtain ⟨-, told⟩ := hrun.told (hfresh id)
    exact broke_of_runs hread (told.started x hx) ((told.story x hx).runs hphase) hcrashed
  · intro id outcome fault h
    obtain ⟨earlier, d, seen, x, k, hearlier, hseen, hrun', hx, hk⟩ := hrun.before_fault h
    obtain ⟨-, told⟩ := hrun'.told (hfresh id)
    have hstarted : Started actions id x := by
      obtain ⟨now, input, limit, passed, hmem, hinput⟩ := told.started x hx
      exact ⟨now, input, limit, passed, hearlier.subset hmem, hinput⟩
    exact ⟨x, k, chainEvents id seen, hstarted, hk,
      broke_of_runs hread hstarted ((told.story x hx).runs hk.phase) ⟨[], rfl⟩, hseen.filterMap _⟩

theorem allRead_of_performNew {now : Instant} {id : String} {m : Machine} {input limit : Datum}
    {choices : List Choice} {first after : Engine} {actions : List Action} {events : List Event}
    (hm : ∃ v, Machine.ofJson v = .ok m)
    (h : performNew now id m input limit choices first = some (actions, after, events)) :
    AllRead actions := by
  intro now' id' m' input' limit' passed' hmem
  rcases mem_of_performNew h hmem with heq | ⟨move, heq⟩
  · cases heq
    exact hm
  · cases heq

def napText : Value :=
  .obj [("StartAt", .str "Both"), ("States", .obj [("Both", .obj [("Type", .str "Parallel"),
    ("Branches", .arr [
      .obj [("StartAt", .str "Nap"), ("States", .obj [("Nap",
        .obj [("Type", .str "Wait"), ("SecondsPath", .str "$.seconds")])])],
      .obj [("StartAt", .str "Rest"), ("States", .obj [("Rest",
        .obj [("Type", .str "Succeed")])])]])])])]

def nap : Machine := (Machine.ofJson napText).toOption.get (by decide +kernel)

theorem read_nap : ∃ v, Machine.ofJson v = .ok nap := ⟨napText, eq_ok_get _⟩

/-- The second branch ends well, the first one is to sleep for longer than any double. -/
def longNap : Option (List Action × Engine × List Event) :=
  performNew ⟨0⟩ "n" nap (.dict [(.str "seconds", .int (1 <<< 1024))]) (.int 60)
    [.move (.begin "n"), .move (.chain "n" [] .enter), .move (.chain "n" [0] .begin),
      .move (.chain "n" [1] .begin), .move (.chain "n" [1] .enter),
      .move (.chain "n" [0] .enter), .move (.chain "n" [] .join), .move (.settle "n")]
    (make ⟨[]⟩ none 0)

def isCrash : Event → Bool
  | .settled _ _ crash => crash.isSome
  | _ => false

theorem never_goes_wrong_longNap :
    ∃ actions e events id outcome fault x k seen, longNap = some (actions, e, events) ∧
      AllRead actions ∧ Run (make ⟨[]⟩ none 0) actions e events ∧
      .settled id outcome (some fault) ∈ events ∧ Unforeseen x outcome fault k ∧
      Broke ⟨[]⟩ x k (.ended (.error (.crash k))) seen ∧ seen <+: chainEvents id events := by
  have hcrash : longNap.any (fun run => run.2.2.any isCrash) = true := by decide +kernel
  obtain ⟨⟨actions, e, events⟩, hsome, hany⟩ := (Option.any_eq_true _ _).1 hcrash
  obtain ⟨event, hmem, hevent⟩ := List.any_eq_true.1 hany
  have hread := allRead_of_performNew read_nap hsome
  have hrun := Run.of_performNew rfl hsome
  cases event with
  | settled id outcome crash =>
    obtain ⟨fault, rfl⟩ := Option.isSome_iff_exists.1 hevent
    obtain ⟨x, k, seen, -, hunforeseen, hbroke, hinitial⟩ :=
      (hrun.never_goes_wrong hread).2.2 id outcome fault hmem
    exact ⟨actions, e, events, id, outcome, fault, x, k, seen, hsome, hread, hrun, hmem, hunforeseen,
      hbroke, hinitial⟩
  | _ => cases hevent

end ReminderFlow.Engine
