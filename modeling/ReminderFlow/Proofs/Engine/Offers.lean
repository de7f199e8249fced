import ReminderFlow.Proofs.Engine.Ensures
import ReminderFlow.Proofs.Run.Address
import ReminderFlow.Proofs.Run.Turn

namespace ReminderFlow

open Chain (BringsUp Replies)

/-- A move of the engine as far as it can be foreseen. -/
def Engine.Move.foreseen : Move → Move
  | .chain id address move => .chain id address move.foreseen
  | m => m

/-- The moves by which an execution can go on, as far as they can be foreseen. -/
inductive Execution.Offers (x : Execution) (id : String) : Engine.Move → Prop
  | begin (phase : x.phase = .scheduled) : x.Offers id (.begin id)
  | chain {c d : Chain} {address : List Nat} {move : Chain.Move} (phase : x.phase = .running c)
      (stands : c.at? address = some d) (turn : d.turn? = some move) :
      x.Offers id (.chain id address move)
  | settle {r : Except Failure Document} {o : Outcome} (phase : x.phase = .running (.ended r))
      (told : Outcome.ofResult? x.deadline r = some o) : x.Offers id (.settle id)
  | release {at_ : Instant} {o : Outcome} (phase : x.phase = .finishing at_ o) :
      x.Offers id (.release id)

/-- An execution that is not done can go on, unless its main chain has ended with what no outcome
can tell. -/
theorem Execution.exists_offers {x : Execution} (h : x.phase.isDone = false) (id : String) :
    (∃ m, x.Offers id m) ∨
      ∃ r, x.phase = .running (.ended r) ∧ Outcome.ofResult? x.deadline r = none := by
  cases hphase : x.phase with
  | scheduled => exact .inl ⟨_, .begin hphase⟩
  | running c =>
    cases hc : c.result? with
    | none =>
      obtain ⟨address, d, turn, stands, hturn⟩ := Chain.exists_turn hc
      exact .inl ⟨_, .chain hphase stands hturn⟩
    | some r =>
      obtain rfl : c = .ended r := by
        cases c <;> cases hc
        rfl
      cases htold : Outcome.ofResult? x.deadline r with
      | none => exact .inr ⟨r, rfl, htold⟩
      | some o => exact .inl ⟨_, .settle hphase htold⟩
  | finishing at_ o => exact .inl ⟨_, .release hphase⟩
  | done at_ o =>
    rw [hphase] at h
    cases h

section

variable {x : Execution} {id : String} {m : Engine.Move}

theorem Execution.Offers.eq_begin (h : x.Offers id m) (hphase : x.phase = .scheduled) :
    m = .begin id := by
  cases h with
  | begin => rfl
  | chain phase => cases hphase.symm.trans phase
  | settle phase => cases hphase.symm.trans phase
  | release phase => cases hphase.symm.trans phase

theorem Execution.Offers.eq_release {at_ : Instant} {o : Outcome} (h : x.Offers id m)
    (hphase : x.phase = .finishing at_ o) : m = .release id := by
  cases h with
  | begin phase => cases hphase.symm.trans phase
  | chain phase => cases hphase.symm.trans phase
  | settle phase => cases hphase.symm.trans phase
  | release => rfl

theorem Execution.Offers.eq_enter {machine : Machine} {name : String} {doc : Document}
    (h : x.Offers id m) (hphase : x.phase = .running (.ready machine name doc)) :
    m = .chain id [] .enter := by
  cases h with
  | begin phase => cases hphase.symm.trans phase
  | @chain c d address move phase stands turn =>
    obtain rfl := Phase.running.inj (hphase.symm.trans phase)
    cases address with
    | nil =>
      cases stands
      cases turn
      rfl
    | cons => cases stands
  | settle phase => cases hphase.symm.trans phase
  | release phase => cases hphase.symm.trans phase

end

/-- A running execution has a move left, be it only to be settled. -/
theorem Execution.Left.pos {knows : String → Bool} {replies : Replies} {x : Execution} {k : Nat}
    {c : Chain} (h : x.Left knows replies k) (hphase : x.phase = .running c) : 0 < k := by
  cases h with
  | scheduled phase => cases hphase.symm.trans phase
  | running phase sure => exact Nat.succ_pos _
  | ended outcome =>
    rw [Execution.outcome?_eq_none_of_running hphase] at outcome
    cases outcome

theorem Execution.Offers.foreseen_eq {x : Execution} {id : String} {m : Engine.Move}
    (h : x.Offers id m) : m.foreseen = m := by
  cases h with
  | @chain c d address move phase stands turn =>
    rw [Engine.Move.foreseen, Chain.foreseen_of_turn? turn]
  | _ => rfl

theorem Execution.Offers.subject?_eq {x : Execution} {id : String} {m : Engine.Move}
    (h : x.Offers id m) : m.subject? = some id := by
  cases h <;> rfl

namespace Engine

variable {e : Engine} {id : String} {x : Execution}

/-- Once its last record is written, an execution can do what it offers. -/
theorem isSome_step_of_offers (hx : e.execution? id = some x) {m : Move}
    (hgone : m = .release id → e.isWriting id = false) (h : x.Offers id m.foreseen) (now : Instant) :
    (e.step now m).isSome = true := by
  cases m with
  | begin other =>
    cases h with
    | begin phase => simp [step, hx, phase]
  | chain other address move =>
    cases h with
    | chain phase stands turn =>
      rw [step_chain hx phase, Chain.isSome_stepAt_iff]
      exact ⟨_, stands, turn⟩
  | settle other =>
    cases h with
    | settle phase told => simp [step, hx, phase, told]
  | release other =>
    cases h with
    | release phase => simp [step, hx, phase, hgone rfl]
  | expire other => cases h
  | cancel other => cases h
  | withdraw other => cases h
  | write => cases h

/-- Nothing can be done for an execution, nor is there anything to be written. -/
structure Rests (e : Engine) (id : String) : Prop where
  moves : ∀ now move, move.subject? = some id → e.step now move = none
  written : e.writing = []

/-- An execution for which nothing can be done is done, or its main chain has ended with what no
outcome can tell. -/
theorem Rests.phase (h : e.Rests id) (hx : e.execution? id = some x) :
    (∃ r, x.phase = .running (.ended r) ∧ Outcome.ofResult? x.deadline r = none) ∨
      ∃ at_ o, x.phase = .done at_ o := by
  cases hdone : x.phase.isDone with
  | false =>
    obtain ⟨m, hm⟩ | hstuck := x.exists_offers hdone id
    · have hgone : e.isWriting id = false := by
        rw [isWriting, h.written]
        rfl
      have hstep := isSome_step_of_offers hx (fun _ => hgone) (hm.foreseen_eq.symm ▸ hm) ⟨0⟩
      rw [h.moves _ m hm.subject?_eq] at hstep
      cases hstep
    · exact .inl hstuck
  | true => exact .inr (phase_of_isDone hdone)

/-- What a move of a chain brings up in its execution. -/
inductive Raises (id : String) (address : List Nat) (next : Chain) : Move → Prop
  | turn {other : List Nat} {turn : Chain.Move} (brings : BringsUp address next other turn) :
      Raises id address next (.chain id other turn)
  | settle {r : Except Failure Document} (ended : next = .ended r) (top : address = []) :
      Raises id address next (.settle id)

/-- After a move of a chain the execution offers what it has offered, but for that move, and what
the move has brought up. -/
theorem Moves.offers_of_chain {after : Engine} {now : Instant} {address : List Nat}
    {move : Chain.Move} {events : List Event}
    (h : Moves e now (.chain id address move) after events) (hx : e.execution? id = some x) :
    ∃ c next seen y, x.phase = .running c ∧
      c.stepAt e.registry.contains move address "" = some (next, seen) ∧
      after.execution? id = some y ∧ y.phase = .running next ∧
      x.Offers id (.chain id address move.foreseen) ∧
      ∀ m, y.Offers id m →
        (x.Offers id m ∧ m ≠ .chain id address move.foreseen) ∨ Raises id address next m := by
  have hphase : ∃ c, x.phase = .running c := by
    cases h with
    | chain found phase =>
      obtain rfl := Option.some.inj (hx.symm.trans found)
      exact ⟨_, phase⟩
  obtain ⟨c, hphase⟩ := hphase
  obtain ⟨next, y, made, hy, hnext⟩ := h.chain_spec hx hphase
  obtain ⟨d, stands, hturn⟩ := Chain.isSome_stepAt_iff.1 (Option.isSome_iff_exists.2 ⟨_, made⟩)
  refine ⟨c, next, _, y, hphase, made, hy, hnext, .chain hphase stands hturn, fun m hm => ?_⟩
  cases hm with
  | begin phase => cases hnext.symm.trans phase
  | release phase => cases hnext.symm.trans phase
  | settle phase =>
    refine .inr (.settle (Phase.running.inj (hnext.symm.trans phase)) ?_)
    obtain rfl := Phase.running.inj (hnext.symm.trans phase)
    cases address with
    | nil => rfl
    | cons i rest =>
      -- A chain below which one moves is a fork, and no chain that has ended.
      cases c with
      | forked stop branches =>
        obtain ⟨_, _, -, -, heq⟩ := Chain.stepAt_cons_iff.1 made
        cases heq
      | _ => cases made
  | chain phase there turn =>
    obtain rfl := Phase.running.inj (hnext.symm.trans phase)
    rcases Chain.turn_of_stepAt made there turn with ⟨hne, hbefore⟩ | hbrings
    · refine .inl ⟨.chain hphase hbefore turn, fun heq => hne ?_⟩
      exact (Move.chain.inj heq).2.1
    · exact .inr (.turn hbrings)

/-- Where a chain goes on by itself, its own turn is all that its move has raised. -/
theorem Raises.eq_of_turn {address : List Nat} {next d : Chain} {m : Move} {turn : Chain.Move}
    (h : Raises id address next m) (stands : next.at? address = some d)
    (hd : d.turn? = some turn) : m = .chain id address turn := by
  cases h with
  | turn brings =>
    cases brings with
    | itself stands' turn' =>
      obtain rfl := Option.some.inj (stands.symm.trans stands')
      obtain rfl := Option.some.inj (hd.symm.trans turn')
      rfl
    | @branch stop machines doc i stands' within =>
      obtain rfl := Option.some.inj (stands.symm.trans stands')
      cases machines with
      | nil => cases within
      | cons first rest => cases hd
    | fork below stands' forks all =>
      obtain rfl := Option.some.inj (stands.symm.trans stands')
      cases hd
  | settle ended top =>
    subst top ended
    cases stands
    cases hd

/-- A fork into branches raises their first moves. -/
theorem Raises.of_fork {address : List Nat} {next : Chain} {m : Move} {stop : Stop} {first : Machine}
    {rest : List Machine} {doc : Document} (h : Raises id address next m)
    (stands : next.at? address =
      some (.forked stop ((first :: rest).map fun b => .created b doc))) :
    ∃ i < (first :: rest).length, m = .chain id (address ++ [i]) .begin := by
  cases h with
  | turn brings =>
    cases brings with
    | itself stands' turn =>
      obtain rfl := Option.some.inj (stands.symm.trans stands')
      cases turn
    | branch stands' within =>
      obtain ⟨-, heq⟩ := Chain.forked.inj (Option.some.inj (stands.symm.trans stands'))
      have hlength := congrArg List.length heq
      rw [List.length_map, List.length_map] at hlength
      exact ⟨_, hlength ▸ within, rfl⟩
    | fork below stands' forks all => cases stands.symm.trans stands'
  | settle ended top =>
    subst top ended
    cases stands

/-- A chain that has ended raises the end of the execution, or lets the fork above it go on. -/
theorem Raises.of_ended {address : List Nat} {next : Chain} {m : Move} {r : Except Failure Document}
    (h : Raises id address next m) (stands : next.at? address = some (.ended r)) :
    (address = [] ∧ m = .settle id) ∨ ∃ above i stop branches, address = above ++ [i] ∧
      next.at? above = some (.forked stop branches) ∧
      (branches.all fun c => c.result?.isSome) = true ∧ m = .chain id above .join := by
  cases h with
  | turn brings =>
    cases brings with
    | itself stands' turn =>
      obtain rfl := Option.some.inj (stands.symm.trans stands')
      cases turn
    | branch stands' within => cases stands.symm.trans stands'
    | fork below stands' forks all => exact .inr ⟨_, _, _, _, below, forks, all, rfl⟩
  | settle ended top => exact .inl ⟨top, rfl⟩

end Engine

end ReminderFlow
