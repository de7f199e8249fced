import Mathlib.Data.List.Forall2
import ReminderFlow.Proofs.Engine.Delivery

namespace ReminderFlow.Engine

/-- The engine without its store and the records on their way there. -/
def bare (e : Engine) : Engine := { e with archive := none, writing := [] }

/-- The event is about a record: handed over, written, failed or given up. -/
def Event.isFiling : Event → Bool
  | .recorded _ => true
  | .written _ _ => true
  | .withdrawn _ => true
  | .dropped _ => true
  | _ => false

def unfiled (events : List Event) : List Event := events.filter fun event => !event.isFiling

/-- The action does nothing but to write or to give up records. -/
def Action.isFiling : Action → Bool
  | .move _ .write => true
  | .move _ (.withdraw _) => true
  | _ => false

/-- An engine and what was to be seen, without store and records. -/
def stripped (made : Engine × List Event) : Engine × List Event := (made.1.bare, unfiled made.2)

variable {e : Engine} {now : Instant} {id : String} {x : Execution}

theorem unfiled_append (before after : List Event) :
    unfiled (before ++ after) = unfiled before ++ unfiled after :=
  List.filter_append before after

theorem unfiled_chain (id : String) (events : List Chain.Event) :
    unfiled (events.map (.chain id)) = events.map (.chain id) := by
  apply List.filter_eq_self.2
  intro event hevent
  obtain ⟨inner, -, rfl⟩ := List.mem_map.1 hevent
  rfl

/-- There is a record or not: either way nothing but records differs. -/
theorem stripped_persist (e : Engine) (r : Option Record) : stripped (e.persist r) = (e.bare, []) := by
  obtain ⟨-, h⟩ | ⟨record, -, -, h⟩ | ⟨record, -, -, -, h⟩ := e.persist_cases r <;> rw [h] <;> rfl

theorem persist_bare (e : Engine) (r : Option Record) : e.bare.persist r = (e.bare, []) := by
  cases r <;> rfl

theorem follow_bare (e : Engine) (now : Instant) (id : String) (x : Execution)
    (events : List Chain.Event) :
    e.bare.follow now id x events =
      ((e.follow now id x events).1.bare, (e.follow now id x events).2.1,
        unfiled (e.follow now id x events).2.2) := by
  induction events generalizing e x with
  | nil => rfl
  | cons event rest ih =>
    cases event with
    | entered branch state type =>
      let y : Execution := { x with states := (Chain.Event.entered branch state type).track x.states }
      obtain ⟨hbare, hseen⟩ := Prod.mk.inj (stripped_persist e (some (y.record id now)))
      have hrest := ih (e.persist (some (y.record id now))).1 y
      rw [hbare] at hrest
      simp only [follow, persist_bare]
      rw [hrest, unfiled_append, hseen]
      rfl
    | _ =>
      simp only [follow]
      rw [ih e]
      rfl

theorem settle_bare (e : Engine) (now : Instant) (id : String) (x : Execution) (outcome : Outcome)
    (left : List Chain.Event) (crash : Option Fault) :
    e.bare.settle now id x outcome left crash = stripped (e.settle now id x outcome left crash) := by
  let y : Execution := { x with states := [], phase := .finishing now outcome }
  let last := y.record? id now
  obtain ⟨hbare, hseen⟩ := Prod.mk.inj (stripped_persist (e.put id y) last)
  have hevents : unfiled (.settled id outcome crash :: ((e.put id y).persist last).2) =
      [.settled id outcome crash] := by
    rw [← List.singleton_append, unfiled_append, hseen]
    rfl
  have hsettle : e.bare.settle now id x outcome left crash =
      (((e.bare.put id y).persist last).1,
        left.map (.chain id) ++ .settled id outcome crash :: ((e.bare.put id y).persist last).2) := rfl
  have hput : e.bare.put id y = (e.put id y).bare := rfl
  rw [hsettle, hput, persist_bare, settle, stripped, unfiled_append, unfiled_chain, hevents, hbare]

theorem release_bare (e : Engine) (id : String) (x : Execution) (at_ : Instant) (outcome : Outcome) :
    e.bare.release id x at_ outcome = stripped (e.release id x at_ outcome) := by
  have hevents : unfiled (e.release id x at_ outcome).2 = (e.release id x at_ outcome).2 := by
    apply List.filter_eq_self.2
    intro event hevent
    rcases List.mem_cons.1 hevent with rfl | hevent
    · rfl
    · obtain ⟨c, -, hevent⟩ := List.mem_flatMap.1 hevent
      rcases List.mem_cons.1 hevent with rfl | hevent
      · rfl
      · obtain ⟨report, -, rfl⟩ := List.mem_map.1 hevent
        rfl
  rw [stripped, hevents]
  rfl

/-- Without its store an engine makes the same moves, only that it waits for no write. -/
theorem step_bare {move : Move} (hmove : move ≠ .write) (hkeeps : ∀ id, move ≠ .withdraw id)
    (hfree : ∀ id, move = .release id → e.isWriting id = false) :
    e.bare.step now move = (e.step now move).map stripped := by
  have hfind (id : String) : e.bare.execution? id = e.execution? id := rfl
  cases move with
  | write => exact absurd rfl hmove
  | withdraw id => exact absurd rfl (hkeeps id)
  | begin id =>
    simp only [step, Option.bind_eq_bind, hfind]
    cases e.execution? id with
    | none => rfl
    | some x => cases hphase : x.phase <;> simp only [Option.bind_some, hphase] <;> rfl
  | chain id address inner =>
    simp only [step, Option.bind_eq_bind, hfind]
    cases e.execution? id with
    | none => rfl
    | some x =>
      cases hphase : x.phase <;> simp only [Option.bind_some, hphase]
      case running c =>
        have hregistry : e.bare.registry = e.registry := rfl
        rw [hregistry]
        cases c.stepAt e.registry.contains inner address "" with
        | none => rfl
        | some made =>
          simp only [Option.bind_some, follow_bare]
          rfl
      all_goals rfl
  | settle id =>
    simp only [step, Option.bind_eq_bind, hfind]
    cases e.execution? id with
    | none => rfl
    | some x =>
      cases hphase : x.phase <;> simp only [Option.bind_some, hphase]
      case running c =>
        cases c with
        | ended r =>
          simp only [settle_bare, Option.map_map]
          rfl
        | _ => rfl
      all_goals rfl
  | expire id =>
    simp only [step, Option.bind_eq_bind, hfind]
    cases e.execution? id with
    | none => rfl
    | some x =>
      cases hphase : x.phase <;> simp only [Option.bind_some, hphase]
      case running c =>
        split_ifs
        · rw [settle_bare]
          rfl
        · rfl
      all_goals rfl
  | cancel id =>
    have hclosed : e.bare.closed = e.closed := rfl
    simp only [step, Option.bind_eq_bind, hfind, hclosed]
    cases e.execution? id with
    | none => rfl
    | some x =>
      cases hphase : x.phase <;> simp only [Option.bind_some, hphase]
      case running c =>
        split_ifs
        · rw [settle_bare]
          rfl
        · rfl
      all_goals rfl
  | release id =>
    have hwriting : e.bare.isWriting id = false := rfl
    simp only [step, Option.bind_eq_bind, hfind, hwriting, hfree id rfl]
    cases e.execution? id with
    | none => rfl
    | some x =>
      cases hphase : x.phase <;> simp only [Option.bind_some, hphase]
      case finishing at_ outcome =>
        simp only [release_bare, Bool.false_eq_true, if_false]
        rfl
      all_goals rfl

theorem register_bare (e : Engine) (now : Instant) (id : String) (m : Machine) (doc : Document)
    (deadline : Instant) :
    e.bare.register now id m doc deadline = stripped (e.register now id m doc deadline) := by
  let x : Execution := ⟨m, doc, now, deadline, [], .scheduled, []⟩
  let d : Engine := { e.put id x with live := e.live ++ [id] }
  obtain ⟨hbare, hseen⟩ := Prod.mk.inj (stripped_persist d (some (x.record id now)))
  have hregister : e.bare.register now id m doc deadline =
      ((d.bare.persist (some (x.record id now))).1,
        (d.bare.persist (some (x.record id now))).2 ++ [.started id deadline]) := rfl
  rw [hregister, persist_bare, register, stripped, unfiled_append, hseen, hbare]
  rfl

theorem addCallback_bare (e : Engine) (id : String) (callback : Callback) :
    e.bare.addCallback id callback = (e.addCallback id callback).map fun (after, events, raised) =>
      (after.bare, unfiled events, raised) := by
  have hfind : e.bare.execution? id = e.execution? id := rfl
  simp only [addCallback, Option.bind_eq_bind, hfind]
  cases e.execution? id with
  | none => rfl
  | some x => cases hx : x.outcome? <;> simp only [Option.bind_some, hx] <;> rfl

theorem Honest.of_bare {move : Move} (h : e.Honest move) : e.bare.Honest move := by
  cases move <;> exact h

theorem Honest.to_bare {move : Move} (h : e.bare.Honest move) : e.Honest move := by
  cases move <;> exact h

/-- Whatever is done to an engine with a store, but for writing and giving up records, can be done
to it without, with the same to be seen besides records. -/
theorem Happens.strip {a : Action} {after : Engine} {more : List Event}
    (h : Happens e a after more) (ha : a.isFiling = false) :
    Happens e.bare a after.bare (unfiled more) := by
  cases h with
  | started fresh prepared done found =>
    have hfresh : e.bare.execution? _ = none := fresh
    refine .started hfresh prepared ?_ found
    rw [register_bare, done]
    rfl
  | refused done =>
    rw [enter_eq_error_iff] at done
    exact .refused (enter_eq_error_iff.2 done)
  | @moved now move _ _ honest done =>
    have hmove : move ≠ .write := by
      rintro rfl
      cases ha
    have hkeeps : ∀ id, move ≠ .withdraw id := by
      rintro id rfl
      cases ha
    have hfree : ∀ id, move = .release id → e.isWriting id = false := by
      rintro id rfl
      cases moves_of_step done with
      | release found phase gone => exact gone
    refine .moved honest.of_bare ?_
    rw [step_bare hmove hkeeps hfree, done]
    rfl
  | @called id callback _ _ raised done =>
    have hadd : e.bare.addCallback id callback = some (after.bare, unfiled more, raised) := by
      rw [addCallback_bare, done]
      rfl
    exact .called hadd
  | closed => exact .closed
  | stopped closed => exact .stopped closed

/-- When nothing is on its way to the store, whatever can be done to an engine without a store can
be done to it with one. -/
theorem Happens.unstrip {a : Action} {d : Engine} {seen : List Event}
    (h : Happens e.bare a d seen) (hwriting : e.writing = []) :
    ∃ after more, Happens e a after more ∧ stripped (after, more) = (d, seen) := by
  cases h with
  | started fresh prepared done found =>
    have hfresh : e.execution? _ = none := fresh
    rw [register_bare] at done
    exact ⟨_, _, .started hfresh prepared rfl found, done⟩
  | refused done =>
    rw [enter_eq_error_iff] at done
    exact ⟨e, [], .refused (enter_eq_error_iff.2 done), rfl⟩
  | @moved now move _ _ honest done =>
    have hmove : move ≠ .write := by
      rintro rfl
      cases done
    have hkeeps : ∀ id, move ≠ .withdraw id := by
      rintro id rfl
      cases moves_of_step done with
      | withdraw found phase closed unwritten => cases unwritten
    have hfree : ∀ id, move = .release id → e.isWriting id = false := by
      intro id _
      rw [isWriting, hwriting]
      rfl
    rw [step_bare hmove hkeeps hfree] at done
    obtain ⟨⟨after, more⟩, hstep, heq⟩ := Option.map_eq_some_iff.1 done
    exact ⟨after, more, .moved honest.to_bare hstep, heq⟩
  | @called id callback _ _ raised done =>
    rw [addCallback_bare] at done
    obtain ⟨⟨after, more, raised'⟩, hadd, heq⟩ := Option.map_eq_some_iff.1 done
    cases heq
    exact ⟨after, more, .called hadd, rfl⟩
  | closed => exact ⟨_, _, .closed, rfl⟩
  | stopped closed => exact ⟨_, _, .stopped closed, rfl⟩

theorem stripped_of_isFiling {a : Action} {after : Engine} {more : List Event}
    (h : Happens e a after more) (ha : a.isFiling = true) : stripped (after, more) = (e.bare, []) := by
  cases h with
  | @moved now move _ _ honest done =>
    cases moves_of_step done with
    | write first archive => rfl
    | withdraw =>
      refine Prod.ext rfl (List.filter_eq_nil_iff.2 fun event hevent => ?_)
      obtain ⟨r, -, rfl⟩ := List.mem_map.1 hevent
      exact Bool.false_ne_true
    | _ => cases ha
  | _ => cases ha

/-- The events tell the same, but for what became of a write. -/
def SameTold : Event → Event → Prop
  | .written r _, told => ∃ fault, told = .written r fault
  | event, told => told = event

/-- A run in which the store does what it likes: every write ends with any fault or with none, and
the store then holds anything and takes or refuses anything. -/
inductive FickleRun (first : Engine) : List Action → Engine → List Event → Prop
  | rest : FickleRun first [] first []
  | next {actions : List Action} {a : Action} {e after : Engine} {events more told : List Event}
      (before : FickleRun first actions e events) (happens : Happens e a after more)
      (same : List.Forall₂ SameTold more told) (archive : Archive) :
      FickleRun first (actions ++ [a]) { after with archive := some archive } (events ++ told)

/-- How the writes ended, in their order. -/
def writeEnds (events : List Event) : List (Option StoreError) :=
  events.filterMap fun
    | .written _ fault => some fault
    | _ => none

/-- The writes end as the pattern has it, from some place of it on. -/
def Follows (pattern : Nat → Option StoreError) (start : Nat) (events : List Event) : Prop :=
  ∀ i fault, (writeEnds events)[i]? = some fault → fault = pattern (start + i)

variable {first : Engine} {actions : List Action} {events : List Event}

theorem sameTold_refl (event : Event) : SameTold event event := by
  cases event with
  | written r fault => exact ⟨fault, rfl⟩
  | _ => rfl

theorem unfiled_of_same {more told : List Event} (h : List.Forall₂ SameTold more told) :
    unfiled told = unfiled more := by
  induction h with
  | nil => rfl
  | @cons event event' rest rest' same further ih =>
    have hfiling : unfiled [event'] = unfiled [event] := by
      cases event with
      | written r fault =>
        obtain ⟨fault', rfl⟩ := same
        rfl
      | _ => exact congrArg (fun event => unfiled [event]) same
    rw [← List.singleton_append, unfiled_append, hfiling, ih, ← unfiled_append,
      List.singleton_append]

/-- The runs of an engine with its store as it is are among these. -/
theorem Run.fickle {registry : Registry} {a : Archive} {retention : Nat}
    (hrun : Run (make registry (some a) retention) actions e events) :
    FickleRun (make registry (some a) retention) actions e events := by
  induction hrun with
  | rest => exact .rest
  | @next actions act d after events more before happens ih =>
    have hkept : after.archive.isSome = true := (before.next happens).writes.isSome_archive
    obtain ⟨b, hb⟩ := Option.isSome_iff_exists.1 hkept
    have hsame : { after with archive := some b } = after := by rw [← hb]
    rw [← hsame]
    exact ih.next happens (List.forall₂_same.2 fun event _ => sameTold_refl event) b

theorem FickleRun.archive (h : FickleRun first actions e events)
    (harchive : first.archive.isSome = true) : e.archive.isSome = true := by
  cases h with
  | rest => exact harchive
  | next => rfl

/-- With the store and all records taken away, what is left is a run. -/
theorem FickleRun.strip (h : FickleRun first actions e events) :
    Run first.bare (actions.filter fun a => !a.isFiling) e.bare (unfiled events) := by
  induction h with
  | rest => exact .rest
  | @next actions a d after events more told before happens same archive ih =>
    rw [List.filter_append, unfiled_append, unfiled_of_same same]
    cases ha : a.isFiling with
    | false =>
      have hstripped := happens.strip ha
      rw [List.filter_cons_of_pos (by simp [ha])]
      exact ih.next hstripped
    | true =>
      obtain ⟨hbare, hseen⟩ := Prod.mk.inj (stripped_of_isFiling happens ha)
      rw [List.filter_cons_of_neg (by simp [ha]), hseen, List.filter_nil, List.append_nil,
        List.append_nil]
      have hafter : { after with archive := some archive }.bare = after.bare := rfl
      rw [hafter, hbare]
      exact ih

theorem writeEnds_append (before after : List Event) :
    writeEnds (before ++ after) = writeEnds before ++ writeEnds after :=
  List.filterMap_append

theorem Follows.append {pattern : Nat → Option StoreError} {before after : List Event}
    (hb : Follows pattern 0 before) (ha : Follows pattern (writeEnds before).length after) :
    Follows pattern 0 (before ++ after) := by
  intro i fault h
  rw [writeEnds_append] at h
  rcases Nat.lt_or_ge i (writeEnds before).length with hlt | hge
  · rw [List.getElem?_append_left hlt] at h
    exact hb i fault h
  · rw [List.getElem?_append_right hge] at h
    have hfault := ha _ fault h
    rwa [Nat.add_sub_cancel' hge, ← Nat.zero_add i] at hfault

/-- Whatever was to be seen, its writes may have ended as a pattern has it. -/
theorem exists_follows (pattern : Nat → Option StoreError) (start : Nat) (events : List Event) :
    ∃ told, List.Forall₂ SameTold events told ∧ Follows pattern start told := by
  induction events generalizing start with
  | nil => exact ⟨[], .nil, fun i fault h => by cases h⟩
  | cons event rest ih =>
    cases event with
    | written r fault =>
      obtain ⟨told, hsame, hfollows⟩ := ih (start + 1)
      refine ⟨.written r (pattern start) :: told, .cons ⟨_, rfl⟩ hsame, fun i fault h => ?_⟩
      cases i with
      | zero => exact (Option.some.inj h).symm
      | succ i =>
        have hrest := hfollows i fault h
        rwa [Nat.add_right_comm, Nat.add_assoc] at hrest
    | _ =>
      obtain ⟨told, hsame, hfollows⟩ := ih start
      exact ⟨_ :: told, .cons rfl hsame, hfollows⟩

/-- All that is on its way to the store is written. -/
theorem FickleRun.flush (pattern : Nat → Option StoreError) (h : FickleRun first actions e events)
    (harchive : first.archive.isSome = true) (hfollows : Follows pattern 0 events) :
    ∃ writes e' events', FickleRun first (actions ++ writes) e' events' ∧
      (∀ a ∈ writes, a.isFiling = true) ∧ e'.bare = e.bare ∧ unfiled events' = unfiled events ∧
      Follows pattern 0 events' ∧ e'.writing = [] := by
  generalize hwriting : e.writing = records
  induction records generalizing actions e events with
  | nil =>
    refine ⟨[], e, events, ?_, by simp, rfl, rfl, hfollows, hwriting⟩
    rw [List.append_nil]
    exact h
  | cons r rest ih =>
    obtain ⟨a, ha⟩ := Option.isSome_iff_exists.1 (h.archive harchive)
    let after : Engine := { e with writing := rest, archive := some (write a r).1 }
    have happens : Happens e (.move ⟨0⟩ .write) after [.written r (write a r).2] := by
      refine .moved trivial ?_
      simp only [step, hwriting, ha]
      rfl
    obtain ⟨told, hsame, htold⟩ :=
      exists_follows pattern (writeEnds events).length [.written r (write a r).2]
    obtain ⟨writes, e', events', hrun, hwrites, hbare, hseen, hends, hempty⟩ :=
      ih (h.next happens hsame a) (hfollows.append htold) rfl
    refine ⟨.move ⟨0⟩ .write :: writes, e', events', ?_, ?_, hbare, ?_, hends, hempty⟩
    · rw [List.append_cons]
      exact hrun
    · rw [List.forall_mem_cons]
      exact ⟨rfl, hwrites⟩
    · rw [hseen, unfiled_append, unfiled_of_same hsame]
      exact List.append_nil _

theorem Happens.isFiling_eq_false {a : Action} {d : Engine} {seen : List Event}
    (h : Happens e.bare a d seen) : a.isFiling = false := by
  cases h with
  | @moved now move _ _ honest done =>
    cases moves_of_step done with
    | write first archive => cases archive
    | withdraw found phase closed unwritten => cases unwritten
    | _ => rfl
  | _ => rfl

/-- A run without the store is one with it, however the writes are to end. -/
theorem Run.unstrip {further : List Action} {d : Engine} {seen : List Event}
    (pattern : Nat → Option StoreError) (hrun : Run e.bare further d seen)
    (harchive : e.archive.isSome = true) :
    ∃ actions e' events, FickleRun e actions e' events ∧
      (actions.filter fun a => !a.isFiling) = further ∧ e'.bare = d ∧ unfiled events = seen ∧
      Follows pattern 0 events := by
  induction hrun with
  | rest => exact ⟨[], e, [], .rest, rfl, rfl, rfl, fun i fault h => by cases h⟩
  | @next further a d after seen more before happens ih =>
    obtain ⟨actions, e', events, hrun, hactions, hbare, hseen, hfollows⟩ := ih
    -- Nothing may be on its way to the store when an execution is to be done.
    obtain ⟨writes, f, events', hrun, hwrites, hflushed, hseen', hfollows, hempty⟩ :=
      hrun.flush pattern harchive hfollows
    have hd : f.bare = d := hflushed.trans hbare
    rw [← hd] at happens
    obtain ⟨after', more', happens', hstripped⟩ := happens.unstrip hempty
    obtain ⟨hafter, hmore⟩ := Prod.mk.inj hstripped
    obtain ⟨told, hsame, htold⟩ := exists_follows pattern (writeEnds events').length more'
    obtain ⟨archive, -⟩ := Option.isSome_iff_exists.1 harchive
    refine ⟨actions ++ writes ++ [a], _, events' ++ told, hrun.next happens' hsame archive, ?_,
      hafter, ?_, hfollows.append htold⟩
    · have hnone : (writes.filter fun a => !a.isFiling) = [] := by
        rw [List.filter_eq_nil_iff]
        intro b hb
        simp [hwrites b hb]
      rw [List.filter_append, List.filter_append, hactions, hnone, List.append_nil,
        List.filter_cons_of_pos (by simp [happens.isFiling_eq_false]), List.filter_nil]
    · rw [unfiled_append, unfiled_of_same hsame, hseen', hseen, hmore]

/-- Two engines have the same executions in the same phases, with the same pointers and callbacks,
and remember the same ones. -/
structure SameWork (e d : Engine) : Prop where
  executions : d.executions = e.executions
  live : d.live = e.live
  finished : d.finished = e.finished
  closed : d.closed = e.closed
  shut : d.shut = e.shut

theorem sameWork_of_bare {e d : Engine} (h : e.bare = d.bare) : SameWork e d :=
  ⟨(congrArg Engine.executions h).symm, (congrArg Engine.live h).symm,
    (congrArg Engine.finished h).symm, (congrArg Engine.closed h).symm, (congrArg Engine.shut h).symm⟩

/-- Persistence does not bear on executions. Whatever the store does with each write, and whether
there can be a last record or not: the same run is there without the store, with the same executions
in the same phases and the same to be seen besides records. And from any point of it, whatever can
be done without the store can be done with it too, to the same end, however the writes are to
end. -/
theorem FickleRun.same_without_store {registry : Registry} {a : Archive} {retention : Nat}
    (h : FickleRun (make registry (some a) retention) actions e events) :
    ∃ d, Run (make registry none retention) (actions.filter fun a => !a.isFiling) d (unfiled events) ∧
      SameWork e d ∧
      ∀ (pattern : Nat → Option StoreError) further d' seen, Run d further d' seen →
        ∃ others e' more, FickleRun e others e' more ∧
          (others.filter fun a => !a.isFiling) = further ∧ unfiled more = seen ∧ SameWork e' d' ∧
          Follows pattern 0 more := by
  refine ⟨e.bare, h.strip, sameWork_of_bare rfl, fun pattern further d' seen hrun => ?_⟩
  obtain ⟨others, e', more, hfickle, hothers, rfl, hseen, hfollows⟩ :=
    hrun.unstrip pattern (h.archive rfl)
  exact ⟨others, e', more, hfickle, hothers, hseen, sameWork_of_bare rfl, hfollows⟩

/-- The machine fails with a number for a code, which no record can tell. -/
def grudgeText : Value :=
  .obj [("StartAt", .str "Sulk"), ("States", .obj [("Sulk",
    .obj [("Type", .str "Fail"), ("Error", .int 5)])])]

def grudge : Machine := (Machine.ofJson grudgeText).toOption.get (by decide +kernel)

def closedShop : Archive := ⟨.empty .usual, fun _ => true⟩

def grudging : Option (List Action × Engine × List Event) :=
  performNew ⟨0⟩ "g" grudge (.dict []) (.int 60)
    [.move (.begin "g"), .move .write, .move (.chain "g" [] .enter), .move (.settle "g"),
      .move (.release "g"), .move .write]
    (make ⟨[]⟩ (some closedShop) 0)

theorem same_without_store_grudging :
    ∃ actions e events d x, grudging = some (actions, e, events) ∧
      FickleRun (make ⟨[]⟩ (some closedShop) 0) actions e events ∧
      writeEnds events = [some .refused, some .refused] ∧ e.execution? "g" = some x ∧
      x.phase.isDone = true ∧
      Run (make ⟨[]⟩ none 0) (actions.filter fun a => !a.isFiling) d (unfiled events) ∧
      d.execution? "g" = some x := by
  have hdone : grudging.any (fun run => writeEnds run.2.2 = [some .refused, some .refused] ∧
      (run.2.1.execution? "g").any fun x => x.phase.isDone) = true := by decide +kernel
  obtain ⟨⟨actions, e, events⟩, hsome, hany⟩ := (Option.any_eq_true _ _).1 hdone
  obtain ⟨hends, hany⟩ := of_decide_eq_true hany
  obtain ⟨x, hx, hphase⟩ := (Option.any_eq_true _ _).1 hany
  have hfickle := (Run.of_performNew rfl hsome).fickle
  obtain ⟨d, hrun, hsame, -⟩ := hfickle.same_without_store
  refine ⟨actions, e, events, d, x, hsome, hfickle, hends, hx, hphase, hrun, ?_⟩
  rw [execution?, hsame.executions]
  exact hx

end ReminderFlow.Engine
