import ReminderFlow.Proofs.Engine.Moves
import ReminderFlow.Proofs.Engine.Schedule
import ReminderFlow.Proofs.Engine.Story
import ReminderFlow.Proofs.Machine.Accepted
import ReminderFlow.Proofs.Run.Rest

namespace ReminderFlow.Engine

/-- In a running execution, the chain at the address is led round in a circle. -/
def Circles (e : Engine) (id : String) (address : List Nat) : Prop :=
  ∃ x c, e.execution? id = some x ∧ x.phase = .running c ∧ c.CirclesAt address

variable {e after : Engine} {id : String} {address : List Nat} {events : List Event}

theorem Circles.of_same (h : e.Circles id address)
    (hsame : after.execution? id = e.execution? id) : after.Circles id address := by
  obtain ⟨x, c, hx, hphase, hc⟩ := h
  exact ⟨x, c, hsame.trans hx, hphase, hc⟩

/-- Only the chains of a running execution move. -/
theorem Circles.moved {now : Instant} {move : Move} (h : e.Circles id address)
    (done : Moves e now move after events) : after.Circles id address := by
  by_cases hsubject : move.subject? = some id
  case neg => exact h.of_same (done.execution?_of_ne hsubject)
  obtain ⟨x, c, hx, hphase, hc⟩ := h
  have hsame {y : Execution} (found : e.execution? id = some y) : y = x :=
    Option.some.inj (found.symm.trans hx)
  cases done with
  | begin found phase =>
    cases hsubject
    rw [hsame found, hphase] at phase
    cases phase
  | @chain _ _ _ z y d next seen f _ found phase made followed =>
    cases hsubject
    obtain rfl := hsame found
    obtain rfl := Phase.running.inj (hphase.symm.trans phase)
    obtain ⟨-, -, ⟨states, hstates⟩, -⟩ := e.follow_spec now id { z with phase := .running next } seen
    rw [followed] at hstates
    refine ⟨y, next, f.execution?_put_self id y, ?_, hc.stepAt made⟩
    rw [show y = { z with phase := .running next, states := states } from hstates]
  | settle found phase told settled =>
    cases hsubject
    rw [hsame found, hphase] at phase
    obtain rfl := Phase.running.inj phase
    cases hc.result?_eq_none
  | expire found phase unended suspended settled =>
    cases hsubject
    rw [hsame found, hphase] at phase
    obtain rfl := Phase.running.inj phase
    rw [hc.not_isSuspended] at suspended
    cases suspended
  | cancel found phase closed unended suspended settled =>
    cases hsubject
    rw [hsame found, hphase] at phase
    obtain rfl := Phase.running.inj phase
    rw [hc.not_isSuspended] at suspended
    cases suspended
  | withdraw found phase closed unwritten =>
    cases hsubject
    rw [hsame found, hphase] at phase
    cases phase
  | write first archive => cases hsubject
  | release found phase gone =>
    cases hsubject
    rw [hsame found, hphase] at phase
    cases phase

/-- Nothing ends a chain that circles. -/
theorem Circles.happens {a : Action} (h : e.Circles id address) (done : Happens e a after events) :
    after.Circles id address := by
  cases done with
  | @started now other _ _ _ _ _ _ _ _ fresh prepared done =>
    have hne : id ≠ other := by
      rintro rfl
      obtain ⟨x, c, hx, -⟩ := h
      rw [hx] at fresh
      cases fresh
    obtain ⟨hexecutions, -⟩ := register_spec done
    apply h.of_same
    rw [execution?, hexecutions]
    exact e.execution?_put_of_ne hne _
  | refused done => exact h
  | moved honest done => exact h.moved (moves_of_step done)
  | @called other callback _ _ raised done =>
    obtain ⟨x, hx, ⟨rfl, -⟩ | ⟨rfl, -⟩⟩ := callback_of_addCallback done
    · exact h
    · by_cases hid : id = other
      · subst hid
        obtain ⟨y, c, hy, hphase, hc⟩ := h
        obtain rfl := Option.some.inj (hx.symm.trans hy)
        exact ⟨_, c, e.execution?_put_self id _, hphase, hc⟩
      · exact h.of_same (e.execution?_put_of_ne hid _)
  | closed => exact h
  | stopped => exact h

theorem Circles.run {actions : List Action} (h : e.Circles id address)
    (hrun : Run e actions after events) : after.Circles id address := by
  induction hrun with
  | rest => exact h
  | next before happens ih => exact ih.happens happens

/-- Neither the deadline nor the end of the engine can be delivered to it. -/
theorem Circles.endless (h : e.Circles id address) (now : Instant) :
    e.step now (.expire id) = none ∧ e.step now (.cancel id) = none ∧
      ∃ x, e.execution? id = some x ∧ x.outcome? = none := by
  obtain ⟨x, c, hx, hphase, hc⟩ := h
  have hrunning {y : Execution} {d : Chain} (found : e.execution? id = some y)
      (phase : y.phase = .running d) (suspended : d.isSuspended = true) : False := by
    obtain rfl := Option.some.inj (hx.symm.trans found)
    obtain rfl := Phase.running.inj (hphase.symm.trans phase)
    rw [hc.not_isSuspended] at suspended
    cases suspended
  refine ⟨?_, ?_, x, hx, by rw [Execution.outcome?, hphase]; rfl⟩
  · cases hstep : e.step now (.expire id) with
    | none => rfl
    | some done =>
      obtain ⟨after, events⟩ := done
      cases moves_of_step hstep with
      | expire found phase unended suspended settled => exact (hrunning found phase suspended).elim
  · cases hstep : e.step now (.cancel id) with
    | none => rfl
    | some done =>
      obtain ⟨after, events⟩ := done
      cases moves_of_step hstep with
      | cancel found phase closed unended suspended settled =>
        exact (hrunning found phase suspended).elim

/-- From every state of an accepted machine, and with every document, a chain comes to rest after no
more entries than there are states, unless passes and choices lead it round in a circle. Then its
execution never ends, whatever else happens, and neither its deadline nor the end of the engine is
ever delivered to it. -/
theorem rests_or_circles {m : Machine} (accepted : m.Accepted) {name : String}
    (known : name ∈ m.names) (doc : Document) :
    (¬m.Circles doc name → ∀ knows branch,
      (Chain.glide knows branch m.names.length (.ready m name doc)).isReady = false) ∧
    (m.Circles doc name →
      (∀ knows branch n, (Chain.glide knows branch n (.ready m name doc)).isReady = true) ∧
      ∀ e id x c address, e.execution? id = some x → x.phase = .running c →
        c.at? address = some (.ready m name doc) →
        ∀ actions after events, Run e actions after events →
          (∀ now, after.step now (.expire id) = none ∧ after.step now (.cancel id) = none) ∧
          ∃ y, after.execution? id = some y ∧ y.outcome? = none) := by
  constructor
  · intro h knows branch
    exact Chain.glide_rests accepted known h
  · intro h
    refine ⟨fun knows branch n => Chain.glide_of_circles h n, ?_⟩
    intro e id x c address hx hphase hat actions after events hrun
    have hcircles : e.Circles id address := ⟨x, c, hx, hphase, m, name, doc, hat, h⟩
    have hafter := hcircles.run hrun
    refine ⟨fun now => ?_, (hafter.endless ⟨0⟩).2.2⟩
    obtain ⟨hexpire, hcancel, -⟩ := hafter.endless now
    exact ⟨hexpire, hcancel⟩

def again : Machine :=
  .mk "A"
    [("A", .choice [⟨.compare .booleanEquals (.str "$.again") (.bool true), .str "A"⟩] (.str "Done")),
     ("Done", .succeed)]
    ""

def restless : Document := ⟨.obj [("again", .bool true)]⟩

def calm : Document := ⟨.obj [("again", .bool false)]⟩

theorem accepted_again : again.Accepted := by
  have hcheck : again.check = .ok () := eq_ok_of_isSome (by decide +kernel)
  refine .of_parts hcheck fun p hp => ?_
  simp only [again, Machine.states, List.mem_cons, List.not_mem_nil, or_false] at hp
  rcases hp with rfl | rfl <;> trivial

theorem circles_again : again.Circles restless "A" := by
  have hpass : again.pass? restless "A" = some "A" := by decide +kernel
  exact ⟨"A", .refl, .single hpass⟩

theorem never_at_rest :
    ¬∀ m : Machine, m.Accepted → ∀ doc, ∀ name ∈ m.names, ∀ knows branch,
      ∃ n, (Chain.glide knows branch n (.ready m name doc)).isReady = false := by
  intro h
  have hname : "A" ∈ again.names := by decide +kernel
  obtain ⟨n, hn⟩ := h again accepted_again restless "A" hname (fun _ => false) ""
  rw [Chain.glide_of_circles circles_again n] at hn
  cases hn

/-- An execution that is about to enter the choice, a minute before its deadline. -/
def asking : Engine where
  registry := ⟨[]⟩
  retention := 0
  archive := none
  executions := [("a", ⟨again, restless, ⟨0⟩, ⟨60000000⟩, [], .running (.ready again "A" restless), []⟩)]
  live := ["a"]
  finished := []
  writing := []
  closed := false
  shut := false

theorem rests_or_circles_again :
    again.Accepted ∧ "A" ∈ again.names ∧ ¬again.Circles calm "A" ∧
      (∀ knows branch, (Chain.glide knows branch again.names.length (.ready again "A" calm)).isReady =
        false) ∧
      ∃ actions after events, Run asking actions after events ∧ actions.length = 2 ∧
        after.step ⟨60000001⟩ (.expire "a") = none := by
  have hname : "A" ∈ again.names := by decide +kernel
  have hcalm : ¬again.Circles calm "A" := by
    intro h
    have hnone : again.pass calm "A" 2 = none := by decide +kernel
    exact h.pass_ne_none 2 hnone
  have hrests := (rests_or_circles accepted_again hname calm).1 hcalm
  have hlength : (perform ⟨0⟩ [.move (.chain "a" [] .enter), .move (.chain "a" [] .enter)] asking).map
      (fun made => made.1.length) = some 2 := by decide +kernel
  obtain ⟨⟨actions, after, events⟩, hsome, hactions⟩ := Option.map_eq_some_iff.1 hlength
  have hrun := Run.rest.perform hsome
  have hcircles := (rests_or_circles accepted_again hname restless).2 circles_again
  have hnever := (hcircles.2 asking "a" _ _ [] rfl rfl rfl _ after _ hrun).1
  exact ⟨accepted_again, hname, hcalm, hrests, _, after, _, hrun, hactions,
    (hnever ⟨60000001⟩).1⟩

end ReminderFlow.Engine
