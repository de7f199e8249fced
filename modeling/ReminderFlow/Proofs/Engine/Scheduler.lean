import ReminderFlow.Engine.Scheduler
import ReminderFlow.Proofs.Engine.Ensures
import ReminderFlow.Proofs.Engine.Goes
import ReminderFlow.Proofs.Engine.Settled

namespace ReminderFlow

namespace Chain

variable {knows : String → Bool}

/-- A chain that waits for the reply to its call makes no other move. -/
theorem reply_of_stepAt {stop : Stop} {call : Call} {move : Move} {address : List Nat}
    {branch : String} {r : Chain × List Event}
    (h : stepAt knows move address branch (working stop call true) = some r) :
    address = [] ∧ ∃ result, move = .reply result := by
  cases address with
  | cons i rest => cases h
  | nil =>
    cases move with
    | reply result => exact ⟨rfl, result, rfl⟩
    | _ => cases h

/-- As long as it gets no reply, it goes on to wait. -/
theorem working_of_stepAt {c next : Chain} {stop : Stop} {call : Call} {move : Move}
    {address other : List Nat} {branch : String} {events : List Event}
    (hat : c.at? address = some (working stop call true))
    (made : stepAt knows move other branch c = some (next, events))
    (hother : other = address → ∀ result, move ≠ .reply result) :
    next.at? address = some (working stop call true) := by
  obtain ⟨name, hreaches⟩ := reaches_of_at? hat branch
  by_cases hbelow : address <+: other
  · obtain ⟨rest, rfl⟩ := hbelow
    obtain ⟨after, hafter, -⟩ := hreaches.stepAt made
    obtain ⟨rfl, result, rfl⟩ := reply_of_stepAt hafter
    exact absurd rfl (hother (List.append_nil address) result)
  · exact (hreaches.stepAt_elsewhere rfl hbelow made).1.at?

/-- A call is made once, and waits for its reply then. -/
theorem working_of_call {c next : Chain} {address : List Nat} {branch : String}
    {events : List Event} (made : stepAt knows .call address branch c = some (next, events)) :
    ∃ stop call, c.at? address = some (working stop call false) ∧
      next.at? address = some (working stop call true) := by
  induction address generalizing branch c next with
  | nil =>
    cases c with
    | working stop call started =>
      cases started with
      | false =>
        cases made
        exact ⟨stop, call, rfl, rfl⟩
      | true => cases made
    | _ => cases made
  | cons i rest ih =>
    cases c with
    | forked stop branches =>
      obtain ⟨child, after, hchild, hmade, rfl⟩ := stepAt_cons_iff.1 made
      obtain ⟨stop', call, hbefore, hafter⟩ := ih hmade
      have hlt := (List.getElem?_eq_some_iff.1 hchild).1
      refine ⟨stop', call, ?_, ?_⟩
      · rw [at?, hchild]
        exact hbefore
      · rw [at?, List.getElem?_set_self hlt]
        exact hafter
    | _ => cases made

end Chain

namespace Engine

/-- A reply that its executor may give, and that its chain waits for if the execution still runs. -/
structure Awaited (e : Engine) (a : Answer) : Prop where
  waits : ∃ x, e.execution? a.id = some x ∧ x.phase ≠ .scheduled ∧ ∀ c, x.phase = .running c →
    ∃ stop call, c.at? a.address = some (.working stop call true) ∧
      e.registry.MayReply call.executor call.input a.result

theorem Awaited.of_same {e after : Engine} {a : Answer} (h : Awaited e a)
    (hx : after.execution? a.id = e.execution? a.id) (hr : after.registry = e.registry) :
    Awaited after a := by
  obtain ⟨x, hfound, hwaits⟩ := h.waits
  rw [← hr] at hwaits
  exact ⟨x, hx.trans hfound, hwaits⟩

theorem Awaited.of_ended {e : Engine} {a : Answer} {x : Execution}
    (hx : e.execution? a.id = some x) {at_ : Instant} {o : Outcome}
    (hend : x.phase.end? = some (at_, o)) : Awaited e a := by
  refine ⟨x, hx, fun hphase => ?_, fun c hphase => ?_⟩
  · rw [hphase] at hend
    cases hend
  · rw [hphase] at hend
    cases hend

theorem awaited_of_settle {e after : Engine} {now : Instant} {a : Answer} {x : Execution}
    {outcome : Outcome} {left : List Chain.Event} {crash : Option Fault} {events : List Event}
    (h : e.settle now a.id x outcome left crash = (after, events)) : Awaited after a := by
  refine .of_ended (x := { x with states := [], phase := .finishing now outcome }) ?_ rfl
  rw [← e.execution?_put_self a.id, ← execution?_settle e now a.id x outcome left crash, h]

theorem Awaited.honest {e : Engine} {a : Answer} (h : Awaited e a) :
    e.Honest (.chain a.id a.address (.reply a.result)) := by
  intro x c hx hphase stop call started hat
  obtain ⟨y, hy, -, hwaits⟩ := h.waits
  obtain rfl := Option.some.inj (hx.symm.trans hy)
  obtain ⟨stop', call', hat', hreply⟩ := hwaits c hphase
  obtain rfl := (Chain.working.inj (Option.some.inj (hat.symm.trans hat'))).2.1
  exact hreply

theorem exists_states_of_follow {e d : Engine} {now : Instant} {id : String} {x y : Execution}
    {seen : List Chain.Event} {events : List Event} (h : e.follow now id x seen = (d, y, events)) :
    ∃ states, y = { x with states := states } := by
  obtain ⟨-, -, ⟨states, hstates⟩, -⟩ := e.follow_spec now id x seen
  rw [h] at hstates
  exact ⟨states, hstates⟩

/-- The chain goes on to wait as long as the move is no reply to it. -/
theorem Awaited.move {e after : Engine} {now : Instant} {m : Move} {events : List Event}
    {a : Answer} (h : Awaited e a) (honest : e.Honest m)
    (done : e.step now m = some (after, events))
    (hm : ∀ result, m ≠ .chain a.id a.address (.reply result)) : Awaited after a := by
  have hregistry : after.registry = e.registry := (Happens.moved honest done).registry
  have hmoves := moves_of_step done
  by_cases hsubject : m.subject? = some a.id
  · obtain ⟨x, hx, hscheduled, hwaits⟩ := h.waits
    cases hmoves with
    | begin found phase =>
      cases hsubject
      obtain rfl := Option.some.inj (hx.symm.trans found)
      exact absurd phase hscheduled
    | @chain _ address move _ y c next seen d _ found phase made followed =>
      cases hsubject
      obtain rfl := Option.some.inj (hx.symm.trans found)
      obtain ⟨stop, call, hat, hreply⟩ := hwaits c phase
      have hnext : next.at? a.address = some (.working stop call true) := by
        refine Chain.working_of_stepAt hat made ?_
        rintro rfl result rfl
        exact hm result rfl
      obtain ⟨states, rfl⟩ := exists_states_of_follow followed
      refine ⟨_, d.execution?_put_self a.id _, Phase.noConfusion, fun c' hc' => ?_⟩
      · cases hc'
        exact ⟨stop, call, hnext, hregistry ▸ hreply⟩
    | settle found phase told settled =>
      cases hsubject
      exact awaited_of_settle settled
    | expire found phase unended suspended settled =>
      cases hsubject
      exact awaited_of_settle settled
    | cancel found phase closed unended suspended settled =>
      cases hsubject
      exact awaited_of_settle settled
    | @withdraw _ y at_ outcome found phase closed writing =>
      cases hsubject
      have hend : y.phase.end? = some (at_, outcome) := by
        rw [phase]
        rfl
      exact .of_ended (show (e.withdraw a.id).1.execution? a.id = some y from found) hend
    | write => cases hsubject
    | release found phase gone =>
      cases hsubject
      exact .of_ended (execution?_put_self _ _ _) rfl
  · exact h.of_same (hmoves.execution?_of_ne hsubject) hregistry

/-- The engine has become another one by moves alone. -/
def Plays (e after : Engine) : Prop :=
  ∃ actions events, Run e actions after events ∧ ∀ a ∈ actions, ∃ now m, a = .move now m

theorem Plays.refl (e : Engine) : Plays e e := ⟨[], [], .rest, by simp⟩

theorem Plays.trans {e d after : Engine} (h : Plays e d) (h' : Plays d after) : Plays e after := by
  obtain ⟨actions, events, hrun, hmoves⟩ := h
  obtain ⟨more, seen, hrun', hmoves'⟩ := h'
  exact ⟨_, _, hrun.append hrun', List.forall_mem_append.2 ⟨hmoves, hmoves'⟩⟩

theorem Plays.move {e after : Engine} {now : Instant} {m : Move} {events : List Event}
    (honest : e.Honest m) (done : e.step now m = some (after, events)) : Plays e after :=
  ⟨_, _, Run.rest.next (.moved honest done), fun _ ha => ⟨now, m, List.mem_singleton.1 ha⟩⟩

/-- Moves start no execution. -/
theorem Plays.absent {e after : Engine} {id : String} (h : Plays e after)
    (hnone : e.execution? id = none) : after.execution? id = none := by
  obtain ⟨actions, events, hrun, hmoves⟩ := h
  induction hrun with
  | rest => exact hnone
  | next before happens ih =>
    obtain ⟨hbefore, hlast⟩ := List.forall_mem_append.1 hmoves
    obtain ⟨now, m, rfl⟩ := hlast _ (List.mem_singleton.2 rfl)
    cases hx : Engine.execution? _ id with
    | none => rfl
    | some y =>
      obtain ⟨_, _, _, _, _, _, _, heq, -⟩ := happens.starts (ih hbefore) hx
      cases heq

/-- Moves leave it at the machine and the input of an execution. -/
theorem Plays.same {e after : Engine} {id : String} {x : Execution} (h : Plays e after)
    (hx : e.execution? id = some x) :
    ∃ y, after.execution? id = some y ∧ y.machine = x.machine ∧ y.input = x.input := by
  obtain ⟨actions, events, hrun, -⟩ := h
  induction hrun with
  | rest => exact ⟨x, hx, rfl, rfl⟩
  | next before happens ih =>
    obtain ⟨y, hy, hmachine, hinput⟩ := ih
    obtain ⟨z, hz, -⟩ := happens.becomes hy
    obtain ⟨hmachine', hinput'⟩ := happens.same hy hz
    exact ⟨z, hz, hmachine'.trans hmachine, hinput'.trans hinput⟩

end Engine

/-- A turn takes twenty microseconds, and a write a millisecond. -/
def Pace.usual : Pace := ⟨20000, 1000000, by decide⟩

namespace Scheduler

open Engine (Awaited Plays)

/-- The moves that bring a reply. -/
def IsReply : Engine.Move → Prop
  | .chain _ _ (.reply _) => True
  | _ => False

theorem ne_reply {m : Engine.Move} (h : ¬IsReply m) (id : String) (address : List Nat)
    (result : Except Fault Datum) : m ≠ .chain id address (.reply result) := by
  rintro rfl
  exact h trivial

theorem honest_of_not_reply {m : Engine.Move} (h : ¬IsReply m) (e : Engine) : e.Honest m := by
  cases m with
  | chain id address move =>
    cases move with
    | reply result => exact absurd trivial h
    | _ => exact fun _ _ _ _ => trivial
  | _ => trivial

/-- The replies that have been given and not been passed on. -/
def pending (s : Scheduler) : List Answer := s.answers ++ s.held.map (·.2)

def target (a : Answer) : String × List Nat := (a.id, a.address)

/-- Each reply is for a chain that waits for it, no two are for one, and nothing else that is
planned brings one. -/
structure Sound (s : Scheduler) : Prop where
  awaited : ∀ a ∈ s.pending, Awaited s.engine a
  distinct : (s.pending.map target).Nodup
  ready : ∀ m, .move m ∈ s.ready → ¬IsReply m
  timers : ∀ t ∈ s.timers, ¬IsReply t.move

theorem sound_make (e : Engine) (pace : Pace) (epoch : Instant) (workers : Nat) :
    (make e pace epoch workers).Sound := by
  constructor <;> simp [make, pending]

/-- One scheduler comes from another at the same time, by moves of the engine alone. -/
structure Works (s after : Scheduler) : Prop where
  sound : after.Sound
  plays : Plays s.engine after.engine
  now : after.now = s.now
  pace : after.pace = s.pace

theorem Works.trans {s t after : Scheduler} (h : Works s t) (h' : Works t after) :
    Works s after :=
  ⟨h'.sound, h.plays.trans h'.plays, h'.now.trans h.now, h'.pace.trans h.pace⟩

variable {s : Scheduler}

theorem Sound.works (h : s.Sound) : Works s s := ⟨h, .refl _, rfl, rfl⟩

theorem Sound.next (h : s.Sound) {m : Engine.Move} (hm : ¬IsReply m) : Works s (s.next m) :=
  ⟨⟨h.awaited, h.distinct, fun m' hm' => by
    rcases List.mem_cons.1 hm' with heq | hm'
    · cases heq
      exact hm
    · exact h.ready m' hm', h.timers⟩, .refl _, rfl, rfl⟩

theorem Sound.soon (h : s.Sound) {m : Engine.Move} (hm : ¬IsReply m) : Works s (s.soon m) :=
  ⟨⟨h.awaited, h.distinct, fun m' hm' => by
    rcases List.mem_append.1 hm' with hm' | heq
    · exact h.ready m' hm'
    · cases List.mem_singleton.1 heq
      exact hm, h.timers⟩, .refl _, rfl, rfl⟩

theorem mem_insertTimer {t u : Timer} {timers : List Timer} (h : u ∈ insertTimer t timers) :
    u = t ∨ u ∈ timers := by
  induction timers with
  | nil => exact .inl (List.mem_singleton.1 h)
  | cons first rest ih =>
    rw [insertTimer] at h
    split_ifs at h
    · exact List.mem_cons.1 h
    · rcases List.mem_cons.1 h with rfl | h
      · exact .inr List.mem_cons_self
      · exact (ih h).imp_right (List.mem_cons_of_mem _)

theorem Sound.later (h : s.Sound) {m : Engine.Move} (hm : ¬IsReply m) (due : Nat) :
    Works s (s.later due m) := by
  refine ⟨⟨h.awaited, h.distinct, h.ready, fun t ht => ?_⟩, .refl _, rfl, rfl⟩
  rcases mem_insertTimer ht with rfl | ht
  · exact hm
  · exact h.timers t ht

theorem move_eq {m : Engine.Move} {after : Scheduler} (h : s.move m = some after) :
    ∃ e events history, s.engine.step s.instant m = some (e, events) ∧
      after = { s with engine := e, history := history } := by
  obtain ⟨⟨e, events⟩, hstep, rfl⟩ := Option.map_eq_some_iff.1 h
  exact ⟨e, events, _, hstep, rfl⟩

theorem Sound.move (h : s.Sound) {m : Engine.Move} {after : Scheduler}
    (honest : s.engine.Honest m)
    (hm : ∀ a ∈ s.pending, ∀ result, m ≠ .chain a.id a.address (.reply result))
    (done : s.move m = some after) : Works s after := by
  obtain ⟨e, events, history, hstep, rfl⟩ := move_eq done
  refine ⟨⟨fun a ha => ?_, h.distinct, h.ready, h.timers⟩, ?_, rfl, rfl⟩
  · exact (h.awaited a ha).move honest hstep (hm a ha)
  · exact .move honest hstep

/-- One more reply that a chain waits for which waits for no other. -/
theorem Sound.expect (h : s.Sound) {after : Scheduler} {a : Answer}
    (hengine : after.engine = s.engine) (hready : after.ready = s.ready)
    (htimers : after.timers = s.timers) (hpending : after.pending.Perm (a :: s.pending))
    (ha : Awaited s.engine a) (hnew : target a ∉ s.pending.map target) : after.Sound := by
  refine ⟨fun b hb => ?_, ?_, hready ▸ h.ready, htimers ▸ h.timers⟩
  · rw [hengine]
    rcases List.mem_cons.1 (hpending.mem_iff.1 hb) with rfl | hb
    · exact ha
    · exact h.awaited b hb
  · exact (hpending.map target).nodup_iff.2 (List.nodup_cons.2 ⟨hnew, h.distinct⟩)

theorem Sound.perform (h : s.Sound) {id : String} {address : List Nat} {call : Call} {x : Execution}
    {c : Chain} {stop : Stop} (hx : s.engine.execution? id = some x) (hphase : x.phase = .running c)
    (hat : c.at? address = some (.working stop call true))
    (hnew : (id, address) ∉ s.pending.map target) : Works s (s.perform id address call) := by
  unfold Scheduler.perform
  dsimp only
  split
  · exact h.works
  · rename_i executor hexecutor
    let count := (s.counts.lookup call.executor).getD 0
    let answer : Answer := ⟨id, address, (executor.call count call.input).result⟩
    have hawaited : Awaited s.engine answer := by
      refine ⟨x, hx, ?_, fun c' hc' => ?_⟩
      · rw [hphase]
        exact Phase.noConfusion
      · rw [hphase] at hc'
        cases hc'
        exact ⟨stop, call, hat, executor, count, hexecutor, rfl⟩
    have hanswered : (s.answers ++ [answer] ++ s.held.map (·.2)).Perm (answer :: s.pending) := by
      rw [List.append_assoc, List.singleton_append]
      exact List.perm_middle
    have hheld : (s.answers ++ (s.held.map (·.2) ++ [answer])).Perm (answer :: s.pending) := by
      rw [← List.append_assoc]
      exact List.perm_append_singleton answer _
    split
    · split_ifs
      · exact ⟨h.expect rfl rfl rfl hanswered hawaited hnew, .refl _, rfl, rfl⟩
      · refine ⟨h.expect rfl rfl rfl (a := answer) ?_ hawaited hnew, .refl _, rfl, rfl⟩
        simpa [pending, see] using hheld
    · exact ⟨h.expect rfl rfl rfl hanswered hawaited hnew, .refl _, rfl, rfl⟩

theorem chainAt?_eq_some_iff {id : String} {address : List Nat} {d : Chain} :
    s.chainAt? id address = some d ↔
      ∃ x c, s.engine.execution? id = some x ∧ x.phase = .running c ∧ c.at? address = some d := by
  unfold chainAt?
  simp only [Option.bind_eq_bind, Option.bind_eq_some_iff]
  constructor
  · rintro ⟨x, hx, h⟩
    split at h
    · rename_i c hphase
      exact ⟨x, c, hx, hphase, h⟩
    · cases h
  · rintro ⟨x, c, hx, hphase, hat⟩
    refine ⟨x, hx, ?_⟩
    rw [hphase]
    exact hat

/-- A call of a chain that has not made it. -/
theorem working_of_move {id : String} {address : List Nat} {after : Scheduler}
    (h : s.move (.chain id address .call) = some after) :
    ∃ stop call, s.chainAt? id address = some (.working stop call false) ∧
      after.chainAt? id address = some (.working stop call true) := by
  obtain ⟨e, events, history, hstep, rfl⟩ := move_eq h
  cases Engine.moves_of_step hstep with
  | @chain _ _ _ x y c next seen d _ found phase made followed =>
    obtain ⟨stop, call, hbefore, hafter⟩ := Chain.working_of_call made
    obtain ⟨states, rfl⟩ := Engine.exists_states_of_follow followed
    refine ⟨stop, call, chainAt?_eq_some_iff.2 ⟨x, c, found, phase, hbefore⟩,
      chainAt?_eq_some_iff.2
        ⟨{ x with phase := .running next, states := states }, next, ?_, rfl, hafter⟩⟩
    exact d.execution?_put_self id _

/-- A chain that has not made its call yet is not one that waits for a reply. -/
theorem Sound.not_mem_targets (h : s.Sound) {id : String} {address : List Nat} {stop : Stop}
    {call : Call} (hchain : s.chainAt? id address = some (.working stop call false)) :
    (id, address) ∉ s.pending.map target := by
  intro hmem
  obtain ⟨a, ha, heq⟩ := List.mem_map.1 hmem
  obtain ⟨rfl, rfl⟩ := Prod.mk.inj heq
  obtain ⟨x, c, hx, hphase, hat⟩ := chainAt?_eq_some_iff.1 hchain
  obtain ⟨y, hy, -, hwaits⟩ := (h.awaited a ha).waits
  obtain rfl := Option.some.inj (hx.symm.trans hy)
  obtain ⟨stop', call', hat', -⟩ := hwaits c hphase
  cases hat.symm.trans hat'

theorem Sound.call (h : s.Sound) {id : String} {address : List Nat} {call : Call} {stop : Stop}
    {started : Bool} {after : Scheduler}
    (hchain : s.chainAt? id address = some (.working stop call started))
    (done : s.move (.chain id address .call) = some after) :
    Works s (after.perform id address call) := by
  have hworks : Works s after := by
    refine h.move (m := .chain id address .call) (fun _ _ _ _ => trivial) (fun a _ result heq => ?_) done
    cases heq
  obtain ⟨stop', call', hbefore, hafter⟩ := working_of_move done
  obtain ⟨rfl, rfl, rfl⟩ := Chain.working.inj (Option.some.inj (hchain.symm.trans hbefore))
  obtain ⟨x, c, hx, hphase, hat⟩ := chainAt?_eq_some_iff.1 hafter
  have hpending : after.pending = s.pending := by
    obtain ⟨_, _, _, -, rfl⟩ := move_eq done
    rfl
  exact hworks.trans (hworks.sound.perform hx hphase hat (hpending ▸ h.not_mem_targets hbefore))

theorem Sound.employ (h : s.Sound) (queued : List (String × List Nat)) :
    Works s (employ queued s) := by
  induction queued generalizing s with
  | nil => exact ⟨⟨h.awaited, h.distinct, h.ready, h.timers⟩, .refl _, rfl, rfl⟩
  | cons q rest ih =>
    obtain ⟨id, address⟩ := q
    rw [Scheduler.employ]
    split_ifs
    · split
      · rename_i hchain done
        have hworks := h.call hchain done
        exact hworks.trans (ih hworks.sound)
      · exact ih h
    · exact ⟨⟨h.awaited, h.distinct, h.ready, h.timers⟩, .refl _, rfl, rfl⟩

theorem Sound.begins (h : s.Sound) (id : String) (address branches : List Nat) :
    Works s (branches.foldl (fun s i => s.soon (.chain id (address ++ [i]) .begin)) s) := by
  induction branches generalizing s with
  | nil => exact h.works
  | cons i rest ih =>
    have hworks : Works s (s.soon (.chain id (address ++ [i]) .begin)) := h.soon not_false
    exact hworks.trans (ih hworks.sound)

theorem Sound.arrange (h : s.Sound) (id : String) (address : List Nat) (c : Chain) :
    Works s (s.arrange id address c) := by
  have hjoin (address : List Nat) : Works s (s.soon (.chain id address .join)) := h.soon not_false
  cases c with
  | created m doc => exact h.works
  | ready m state doc => exact h.next (m := .chain id address .enter) not_false
  | waiting stop seconds =>
    rw [Scheduler.arrange]
    split_ifs
    · exact h.soon (m := .chain id address .wake) not_false
    · exact h.later (m := .chain id address .wake) not_false _
  | working stop call started => exact h.employ _
  | forked stop branches =>
    rw [Scheduler.arrange]
    split_ifs
    · exact hjoin address
    · exact h.begins id address _
  | ended result =>
    cases address with
    | nil => exact h.next (m := .settle id) not_false
    | cons i rest =>
      simp only [Scheduler.arrange]
      split
      · split_ifs
        · exact hjoin _
        · exact h.works
      · exact h.works

theorem Sound.arise (h : s.Sound) (m : Engine.Move) : Works s (s.arise m) := by
  cases m with
  | begin id =>
    rw [Scheduler.arise]
    split
    · rename_i x hx
      have hstrikes : Works s (if s.deadline x ≤ s.now then s.soon (.expire id)
          else s.later (s.deadline x) (.expire id)) := by
        split_ifs
        · exact h.soon (m := .expire id) not_false
        · exact h.later (m := .expire id) not_false _
      exact hstrikes.trans (hstrikes.sound.next (m := .chain id [] .enter) not_false)
    · exact h.works
  | chain id address move =>
    rw [Scheduler.arise]
    split
    · exact h.arrange id address _
    · exact h.works
  | settle id =>
    rw [Scheduler.arise]
    split_ifs
    · exact h.works
    · exact h.next (m := .release id) not_false
  | expire id =>
    rw [Scheduler.arise]
    split_ifs
    · exact h.works
    · exact h.soon (m := .release id) not_false
  | cancel id =>
    rw [Scheduler.arise]
    split_ifs
    · exact h.works
    · exact h.soon (m := .release id) not_false
  | withdraw id => exact h.soon (m := .release id) not_false
  | write => exact h.works
  | release id => exact h.works

theorem Sound.take (h : s.Sound) {m : Engine.Move} (honest : s.engine.Honest m)
    (hm : ∀ a ∈ s.pending, ∀ result, m ≠ .chain a.id a.address (.reply result)) :
    Works s (s.take m) := by
  unfold Scheduler.take
  split
  · rename_i after done
    have hworks := h.move honest hm done
    exact hworks.trans (hworks.sound.arise m)
  · exact h.works

theorem Sound.cancel (h : s.Sound) (id : String) : Works s (s.cancel id) := by
  unfold Scheduler.cancel
  split
  · rename_i after done
    have hworks := h.move (m := .cancel id) trivial (fun _ _ _ => Engine.Move.noConfusion) done
    exact hworks.trans (hworks.sound.arise _)
  · exact h.take (m := .withdraw id) trivial fun _ _ _ => Engine.Move.noConfusion

theorem Sound.cancelAll (h : s.Sound) (ids : List String) :
    Works s (ids.foldl Scheduler.cancel s) := by
  induction ids generalizing s with
  | nil => exact h.works
  | cons id rest ih =>
    have hworks := h.cancel id
    exact hworks.trans (ih hworks.sound)

theorem Sound.perform? (h : s.Sound) {after : Scheduler} (done : s.perform? = some after) :
    Works s after := by
  unfold Scheduler.perform? at done
  split at done
  · rename_i m rest hready
    cases done
    have hsound : Sound { s with ready := rest } :=
      ⟨h.awaited, h.distinct, fun m' hm' => h.ready m' (hready ▸ List.mem_cons_of_mem _ hm'),
        h.timers⟩
    have hm : ¬IsReply m := h.ready m (hready ▸ List.mem_cons_self)
    have hworks := hsound.take (honest_of_not_reply hm _) fun a _ => ne_reply hm a.id a.address
    exact ⟨hworks.sound, hworks.plays, hworks.now, hworks.pace⟩
  · rename_i rest hready
    cases done
    have hsound : Sound { s with ready := rest } :=
      ⟨h.awaited, h.distinct, fun m' hm' => h.ready m' (hready ▸ List.mem_cons_of_mem _ hm'),
        h.timers⟩
    have hworks := hsound.cancelAll s.engine.live
    exact ⟨hworks.sound, hworks.plays, hworks.now, hworks.pace⟩
  · split at done
    · rename_i a rest hanswers
      cases done
      have hpending : s.pending = a :: (rest ++ s.held.map (·.2)) := by
        rw [pending, hanswers]
        rfl
      obtain ⟨ha, hrest⟩ := List.forall_mem_cons.1 (hpending ▸ h.awaited)
      have hdistinct := h.distinct
      rw [hpending, List.map_cons, List.nodup_cons] at hdistinct
      have hsound : Sound { s with answers := rest } := ⟨hrest, hdistinct.2, h.ready, h.timers⟩
      have hworks := hsound.take ha.honest fun b hb result heq => by
        obtain ⟨hid, haddress, -⟩ := Engine.Move.chain.inj heq
        exact hdistinct.1 (List.mem_map.2 ⟨b, hb, Prod.ext hid.symm haddress.symm⟩)
      exact ⟨hworks.sound, hworks.plays, hworks.now, hworks.pace⟩
    · cases done

/-- Timers that go off and a writer that takes up work are no moves. -/
theorem Sound.rouse (h : s.Sound) : s.rouse.Sound where
  awaited := h.awaited
  distinct := h.distinct
  ready m hm := by
    rcases List.mem_append.1 hm with hm | hdue
    · exact h.ready m hm
    · obtain ⟨t, ht, heq⟩ := List.mem_map.1 hdue
      cases heq
      exact h.timers t ((List.takeWhile_sublist _).subset ht)
  timers t ht := h.timers t (List.mem_of_mem_drop ht)

theorem Sound.record (h : s.Sound) : Works s s.record := by
  have hsound : Sound { s with writer := none } := ⟨h.awaited, h.distinct, h.ready, h.timers⟩
  unfold Scheduler.record
  dsimp only
  split
  · rename_i r _ after hwriting done
    have hworks := hsound.move (m := .write) trivial (fun _ _ _ => Engine.Move.noConfusion) done
    have hplays : Works s after := ⟨hworks.sound, hworks.plays, hworks.now, hworks.pace⟩
    split_ifs
    · exact hplays.trans (hworks.sound.soon (m := .release r.executionId) not_false)
    · exact hplays
  · exact ⟨hsound, .refl _, rfl, rfl⟩

/-- The clock has gone on, and the engine has only made moves. -/
structure Passes (s after : Scheduler) : Prop where
  sound : after.Sound
  plays : Plays s.engine after.engine
  since : s.now ≤ after.now
  pace : after.pace = s.pace

theorem Passes.trans {t after : Scheduler} (h : Passes s t) (h' : Passes t after) :
    Passes s after :=
  ⟨h'.sound, h.plays.trans h'.plays, h.since.trans h'.since, h'.pace.trans h.pace⟩

theorem Sound.passes (h : s.Sound) : Passes s s := ⟨h, .refl _, le_rfl, rfl⟩

/-- Some time goes by in each step. -/
theorem Sound.step? (h : s.Sound) {limit : Option Nat} {after : Scheduler}
    (done : s.step? limit = some after) : Passes s after ∧ s.now < after.now := by
  have hlater {t : Scheduler} (ht : t.Sound) (time : Nat) : Sound { t with now := time } :=
    ⟨ht.awaited, ht.distinct, ht.ready, ht.timers⟩
  unfold Scheduler.step? at done
  split_ifs at done
  · cases done
    have hnow : s.now < s.now + 1 := Nat.lt_succ_self _
    exact ⟨⟨(hlater h.record.sound _).rouse, h.record.plays, hnow.le, h.record.pace⟩, hnow⟩
  · split at done
    · rename_i next hnext
      cases done
      have hworks := h.perform? hnext
      have hnow : s.now < s.now + s.pace.turn := Nat.lt_add_of_pos_right s.pace.turn_pos
      exact ⟨⟨(hlater hworks.sound _).rouse, hworks.plays, hnow.le, hworks.pace⟩, hnow⟩
    · split at done
      · rename_i due _
        split_ifs at done
        cases done
        have hnow : s.now < max (s.now + 1) due := (Nat.lt_succ_self _).trans_le (le_max_left _ _)
        exact ⟨⟨(hlater h _).rouse, .refl _, hnow.le, rfl⟩, hnow⟩
      · cases done

theorem Sound.runUntil (h : s.Sound) (goal : Scheduler → Bool) {limit : Nat} {rounds : Nat}
    (hrounds : limit ≤ s.now + rounds) :
    Passes s (runUntil goal (some limit) rounds s) ∧
      (goal (runUntil goal (some limit) rounds s) = true ∨
        limit ≤ (runUntil goal (some limit) rounds s).now) := by
  induction rounds generalizing s with
  | zero => exact ⟨h.passes, .inr hrounds⟩
  | succ rounds ih =>
    rw [Scheduler.runUntil]
    split_ifs with hover
    · refine ⟨h.passes, ?_⟩
      rcases Bool.or_eq_true_iff.1 hover with hgoal | hlimit
      · exact .inl hgoal
      · exact .inr (of_decide_eq_true hlimit)
    · split
      · rename_i after hafter
        obtain ⟨hpasses, hnow⟩ := h.step? hafter
        obtain ⟨hrest, hend⟩ := ih hpasses.sound (s := after) (by omega)
        exact ⟨hpasses.trans hrest, hend⟩
      · have hsound : Sound { s with now := max s.now limit } :=
          ⟨h.awaited, h.distinct, h.ready, h.timers⟩
        exact ⟨⟨hsound, .refl _, le_max_left _ _, rfl⟩, .inr (le_max_right _ _)⟩

/-- What is waited for has come about, or the time is up. -/
theorem Sound.waitFor (h : s.Sound) (goal : Scheduler → Bool) (nanoseconds : Nat) :
    Passes s (s.waitFor goal nanoseconds) ∧ (goal (s.waitFor goal nanoseconds) = true ∨
      s.now + nanoseconds ≤ (s.waitFor goal nanoseconds).now) :=
  h.runUntil goal le_rfl

/-- A start leaves every reply to be waited for as before. -/
theorem Sound.awaited_register (h : s.Sound) {id : String} {m : Machine} {doc : Document}
    {deadline : Instant} {e : Engine} {events : List Engine.Event}
    (hnew : s.engine.execution? id = none)
    (done : s.engine.register s.instant id m doc deadline = (e, events)) :
    ∀ a ∈ s.pending, Awaited e a := by
  intro a ha
  obtain ⟨hexecutions, hregistry, -⟩ := Engine.register_spec done
  have hne : a.id ≠ id := by
    rintro rfl
    obtain ⟨x, hx, -⟩ := (h.awaited a ha).waits
    rw [hnew] at hx
    cases hx
  refine (h.awaited a ha).of_same ?_ hregistry
  rw [Engine.execution?, hexecutions]
  exact Engine.execution?_put_of_ne _ hne _

/-- A start that is not refused takes a turn, and the new execution is taken up soon. -/
theorem Sound.start (h : s.Sound) {id : String} {machine : Option Machine} {input limit : Datum}
    {after : Scheduler} (hnew : s.engine.execution? id = none)
    (done : s.start id machine input limit = .ok after) :
    after.Sound ∧ after.now = s.now + s.pace.turn ∧ after.pace = s.pace ∧
      ∃ events, s.engine.start s.instant id machine input limit = .ok (after.engine, events) := by
  obtain ⟨⟨e, events⟩, hstart, rfl⟩ := map_eq_ok_iff.1 done
  obtain ⟨-, m, doc, deadline, -, hregister⟩ := Engine.start_eq hstart
  have hsound : Sound (({ s with engine := e, now := s.now + s.pace.turn }).see events) :=
    ⟨h.awaited_register hnew hregister, h.distinct, h.ready, h.timers⟩
  exact ⟨(hsound.soon (m := .begin id) not_false).sound.rouse, rfl, rfl, events, hstart⟩

end Scheduler

end ReminderFlow
