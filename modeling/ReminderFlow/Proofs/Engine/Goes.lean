import ReminderFlow.Proofs.Engine.Settled
import ReminderFlow.Proofs.Engine.Story
import ReminderFlow.Proofs.Run.Fork

namespace ReminderFlow.Engine

open Chain (Reaches)

/-- Nothing but moves of its chains is to be seen of an execution. -/
theorem Moves.chainEvents_of_ne {e after : Engine} {now : Instant} {move : Move}
    {events : List Event} (h : Moves e now move after events) {id : String}
    (hne : ∀ address inner, move ≠ .chain id address inner)
    (huncut : ¬(Action.move now move).Cuts id) : chainEvents id events = [] := by
  cases h with
  | begin found phase => rfl
  | @chain other address move x y c next seen d _ found phase made followed =>
    have hother : other ≠ id := by
      rintro rfl
      exact hne address move rfl
    obtain ⟨-, -, -, hseen⟩ := e.follow_spec now other { x with phase := .running next } seen
    rw [followed] at hseen
    rw [hseen, chainEvents_chain_of_ne hother]
  | @settle other x r _ outcome _ found phase told settled =>
    obtain ⟨-, -, hseen⟩ := e.settle_spec now other x outcome [] (crash? r)
    rw [settled] at hseen
    exact hseen id
  | @expire other x c _ _ found phase unended suspended settled =>
    obtain ⟨-, -, hseen⟩ := e.settle_spec now other x (.timedOut x.deadline) (c.abandon "") none
    rw [settled] at hseen
    rw [hseen, chainEvents_chain_of_ne huncut]
  | @cancel other x c _ _ found phase closed unended suspended settled =>
    obtain ⟨-, -, hseen⟩ := e.settle_spec now other x .cancelled (c.abandon "") none
    rw [settled] at hseen
    rw [hseen, chainEvents_chain_of_ne huncut]
  | @withdraw other => exact (notes_withdraw e other).chainEvents id
  | write first archive => rfl
  | release found phase gone => exact (e.notes_release _ _ _ _).chainEvents id

/-- What a move of a chain does to its execution. -/
theorem Moves.chain_spec {e after : Engine} {now : Instant} {id : String} {address : List Nat}
    {move : Chain.Move} {events : List Event} (h : Moves e now (.chain id address move) after events)
    {x : Execution} {c : Chain} (hx : e.execution? id = some x) (hphase : x.phase = .running c) :
    ∃ next y, c.stepAt e.registry.contains move address "" = some (next, chainEvents id events) ∧
      after.execution? id = some y ∧ y.phase = .running next := by
  cases h with
  | @chain _ _ _ z y d next seen f _ found phase made followed =>
    obtain rfl := Option.some.inj (hx.symm.trans found)
    obtain rfl := Phase.running.inj (hphase.symm.trans phase)
    obtain ⟨-, -, ⟨states, hstates⟩, hseen⟩ :=
      e.follow_spec now id { x with phase := .running next } seen
    rw [followed] at hstates hseen
    rw [hseen, chainEvents_chain_self]
    refine ⟨next, y, made, f.execution?_put_self id y, ?_⟩
    rw [show y = { x with phase := .running next, states := states } from hstates]

/-- How a running execution goes on if it is not cut off: its chains stay as they are, or one of
them moves, or the main chain has ended already. -/
inductive Goes (e : Engine) (id : String) (c : Chain) (a : Action) (after : Engine)
    (seen : List Chain.Event) : Prop where
  | stays {y : Execution} (there : after.execution? id = some y) (phase : y.phase = .running c)
      (nothing : seen = [])
  | moves {y : Execution} {now : Instant} {address : List Nat} {move : Chain.Move} {next : Chain}
      (action : a = .move now (.chain id address move))
      (honest : Chain.Honest e.registry.MayReply address c move)
      (made : c.stepAt e.registry.contains move address "" = some (next, seen))
      (there : after.execution? id = some y) (phase : y.phase = .running next)
  | settles (ended : c.result? ≠ none)

theorem Happens.goes {e after : Engine} {a : Action} {more : List Event} {id : String}
    {x : Execution} {c : Chain} (h : Happens e a after more) (huncut : ¬a.Cuts id)
    (hx : e.execution? id = some x) (hphase : x.phase = .running c) :
    Goes e id c a after (chainEvents id more) := by
  have hsame (ha : after.execution? id = e.execution? id) (hnothing : chainEvents id more = []) :
      Goes e id c a after (chainEvents id more) := .stays (ha.trans hx) hphase hnothing
  cases h with
  | @started now other machine input limit m doc deadline _ _ fresh prepared done =>
    have hne : id ≠ other := by
      rintro rfl
      rw [hx] at fresh
      cases fresh
    obtain ⟨hexecutions, -, hnotes⟩ := register_spec done
    refine hsame ?_ (hnotes.chainEvents id)
    rw [execution?, hexecutions]
    exact e.execution?_put_of_ne hne _
  | refused done => exact hsame rfl rfl
  | @moved now move _ _ honest done =>
    have hmoves := moves_of_step done
    by_cases hchain : ∃ address inner, move = .chain id address inner
    · obtain ⟨address, inner, rfl⟩ := hchain
      obtain ⟨next, y, made, hy, hnext⟩ := hmoves.chain_spec hx hphase
      exact .moves rfl (honest x c hx hphase) made hy hnext
    · have hne : ∀ address inner, move ≠ .chain id address inner :=
        fun address inner heq => hchain ⟨address, inner, heq⟩
      have hnothing := hmoves.chainEvents_of_ne hne huncut
      by_cases hsubject : move.subject? = some id
      case neg => exact hsame (hmoves.execution?_of_ne hsubject) hnothing
      cases hmoves with
      | begin found phase =>
        cases hsubject
        obtain rfl := Option.some.inj (hx.symm.trans found)
        rw [hphase] at phase
        cases phase
      | chain =>
        cases hsubject
        exact absurd rfl (hne _ _)
      | settle found phase =>
        cases hsubject
        obtain rfl := Option.some.inj (hx.symm.trans found)
        obtain rfl := Phase.running.inj (hphase.symm.trans phase)
        exact .settles (Option.some_ne_none _)
      | expire =>
        cases hsubject
        exact absurd rfl huncut
      | cancel =>
        cases hsubject
        exact absurd rfl huncut
      | withdraw found phase =>
        cases hsubject
        obtain rfl := Option.some.inj (hx.symm.trans found)
        rw [hphase] at phase
        cases phase
      | write => cases hsubject
      | release found phase =>
        cases hsubject
        obtain rfl := Option.some.inj (hx.symm.trans found)
        rw [hphase] at phase
        cases phase
  | @called other callback _ _ raised done =>
    obtain ⟨y, hy, ⟨rfl, o, -, rfl⟩ | ⟨rfl, -, rfl⟩⟩ := callback_of_addCallback done
    · exact hsame rfl rfl
    · by_cases hne : id = other
      · subst hne
        obtain rfl := Option.some.inj (hx.symm.trans hy)
        exact .stays (e.execution?_put_self id _) hphase rfl
      · exact hsame (e.execution?_put_of_ne hne _) rfl
  | closed => exact hsame rfl rfl
  | stopped => exact hsame rfl rfl

theorem Happens.registry {e after : Engine} {a : Action} {more : List Event}
    (h : Happens e a after more) : after.registry = e.registry := by
  cases h with
  | started fresh prepared done => exact (register_spec done).2.1
  | refused => rfl
  | moved honest done => exact ((moves_of_step done).keeps honest "").registry
  | called done =>
    have hkeeps : Keeps (fun _ => False) _ _ _ := addCallback_keeps done
    exact (hkeeps "").registry
  | closed => rfl
  | stopped => rfl

theorem Run.registry {e after : Engine} {actions : List Action} {more : List Event}
    (hrun : Run e actions after more) : after.registry = e.registry := by
  induction hrun with
  | rest => rfl
  | next before happens ih => exact happens.registry.trans ih

theorem step_chain {e : Engine} {id : String} {x : Execution} {c : Chain}
    (hx : e.execution? id = some x) (hphase : x.phase = .running c) (now : Instant)
    (address : List Nat) (move : Chain.Move) :
    (e.step now (.chain id address move)).isSome =
      (c.stepAt e.registry.contains move address "").isSome := by
  simp only [step, Option.bind_eq_bind, hx, Option.bind_some, hphase]
  cases c.stepAt e.registry.contains move address "" <;> rfl

/-- The chain that stands at an address of an execution that is running, with its name. -/
def Stands (e : Engine) (id : String) (address : List Nat) (name : String) (d : Chain) : Prop :=
  ∃ x c, e.execution? id = some x ∧ x.phase = .running c ∧ Reaches "" c address name d

/-- A chain at an address moves in an execution if and only if it does so alone. -/
theorem Stands.isSome_step {e : Engine} {id name : String} {address : List Nat} {d : Chain}
    (h : e.Stands id address name d) (rest : List Nat) (now : Instant) (move : Chain.Move) :
    (e.step now (.chain id (address ++ rest) move)).isSome =
      (d.stepAt e.registry.contains move rest name).isSome := by
  obtain ⟨x, c, hx, hphase, hreaches⟩ := h
  rw [step_chain hx hphase, Bool.eq_iff_iff, Option.isSome_iff_exists, Option.isSome_iff_exists]
  constructor
  · rintro ⟨⟨next, events⟩, hnext⟩
    obtain ⟨after, hafter, -⟩ := hreaches.stepAt hnext
    exact ⟨_, hafter⟩
  · rintro ⟨⟨after, events⟩, hafter⟩
    obtain ⟨next, hnext⟩ := hreaches.exists_stepAt hafter
    exact ⟨_, hnext⟩

/-- What a chain may do alone it does in its execution, and nothing else is to be seen of that. -/
theorem Stands.step {e : Engine} {id name : String} {address : List Nat} {d next : Chain}
    {move : Chain.Move} {shown : List Chain.Event} (h : e.Stands id address name d)
    (made : d.step e.registry.contains name move = some (next, shown)) (now : Instant) :
    ∃ after events, e.step now (.chain id address move) = some (after, events) ∧
      after.Stands id address name next ∧ chainEvents id events = shown := by
  have hmay := h.isSome_step [] now move
  rw [show d.stepAt e.registry.contains move [] name = _ from made, List.append_nil] at hmay
  obtain ⟨⟨after, events⟩, hstep⟩ := Option.isSome_iff_exists.1 hmay
  obtain ⟨x, c, hx, hphase, hreaches⟩ := h
  obtain ⟨c', y, hmoved, hy, hrunning⟩ := (moves_of_step hstep).chain_spec hx hphase
  rw [← List.append_nil address] at hmoved
  obtain ⟨d', hd, hreached⟩ := hreaches.stepAt hmoved
  obtain ⟨rfl, hshown⟩ := Prod.mk.inj (Option.some.inj (made.symm.trans hd))
  exact ⟨after, events, hstep, ⟨y, c', hy, hrunning, hreached⟩, hshown.symm⟩

theorem Moves.quiet {e after : Engine} {now : Instant} {move : Move} {events : List Event}
    (h : Moves e now move after events) {id : String} {x : Execution} {o : Outcome}
    (hx : e.execution? id = some x) (ho : x.outcome? = some o) : chainEvents id events = [] := by
  have hrunning {c : Chain} (hphase : x.phase = .running c) : False := by
    rw [Execution.outcome?_eq_none_of_running hphase] at ho
    cases ho
  apply h.chainEvents_of_ne
  · rintro address inner rfl
    cases h with
    | chain found phase =>
      obtain rfl := Option.some.inj (hx.symm.trans found)
      exact hrunning phase
  · intro hcuts
    cases h with
    | expire found phase =>
      cases hcuts
      obtain rfl := Option.some.inj (hx.symm.trans found)
      exact hrunning phase
    | cancel found phase =>
      cases hcuts
      obtain rfl := Option.some.inj (hx.symm.trans found)
      exact hrunning phase
    | _ => exact hcuts

/-- Once an execution has an outcome, nothing more is to be seen of its chains. -/
theorem Happens.quiet {e after : Engine} {a : Action} {more : List Event} {id : String}
    {x : Execution} {o : Outcome} (h : Happens e a after more) (hx : e.execution? id = some x)
    (ho : x.outcome? = some o) : chainEvents id more = [] := by
  cases h with
  | started fresh prepared done => exact (register_spec done).2.2.chainEvents id
  | refused done => rfl
  | moved honest done => exact (moves_of_step done).quiet hx ho
  | called done =>
    obtain ⟨y, hy, ⟨-, _, -, rfl⟩ | ⟨-, -, rfl⟩⟩ := callback_of_addCallback done <;> rfl
  | closed => rfl
  | stopped => rfl

theorem Run.quiet {e after : Engine} {actions : List Action} {more : List Event} {id : String}
    {x : Execution} {o : Outcome} (hrun : Run e actions after more) (hx : e.execution? id = some x)
    (ho : x.outcome? = some o) : chainEvents id more = [] := by
  induction hrun with
  | rest => rfl
  | next before happens ih =>
    obtain ⟨y, hy, hoy, -⟩ := before.outcome hx ho
    rw [chainEvents_append, ih, happens.quiet hy hoy]
    rfl

end ReminderFlow.Engine
