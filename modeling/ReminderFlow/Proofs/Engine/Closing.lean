import ReminderFlow.Proofs.Engine.Completion

namespace ReminderFlow

namespace Engine

/-- A move changes one execution, if any. -/
theorem Moves.executions {e after : Engine} {now : Instant} {move : Move} {events : List Event}
    (h : Moves e now move after events) :
    after.executions = e.executions ∨ ∃ id y, after.executions = (e.put id y).executions := by
  cases h with
  | begin => exact .inr ⟨_, _, rfl⟩
  | @chain id _ _ x y _ next seen d _ found phase made followed =>
    obtain ⟨hsame, -⟩ := e.follow_spec now id { x with phase := .running next } seen
    rw [followed] at hsame
    exact .inr ⟨id, y, congrArg (Members.insert id y) hsame⟩
  | @settle id x r _ outcome _ found phase told settled =>
    obtain ⟨hput, -⟩ := e.settle_spec now id x outcome [] (crash? r)
    rw [settled] at hput
    exact .inr ⟨_, _, hput⟩
  | @expire id x c _ _ found phase unended suspended settled =>
    obtain ⟨hput, -⟩ := e.settle_spec now id x (.timedOut x.deadline) (c.abandon "") none
    rw [settled] at hput
    exact .inr ⟨_, _, hput⟩
  | @cancel id x c _ _ found phase closed unended suspended settled =>
    obtain ⟨hput, -⟩ := e.settle_spec now id x .cancelled (c.abandon "") none
    rw [settled] at hput
    exact .inr ⟨_, _, hput⟩
  | withdraw => exact .inl rfl
  | write => exact .inl rfl
  | release => exact .inr ⟨_, _, rfl⟩

/-- There are no two executions with one id. -/
theorem Run.nodup_executions {first e : Engine} {actions : List Action} {events : List Event}
    (hrun : Run first actions e events) (hfirst : (Members.keys first.executions).Nodup) :
    (Members.keys e.executions).Nodup := by
  induction hrun with
  | rest => exact hfirst
  | @next actions a d after seen more before happens ih =>
    cases happens with
    | started fresh prepared done =>
      obtain ⟨hput, -⟩ := register_spec done
      rw [hput]
      exact Members.nodup_insert _ _ ih
    | refused => exact ih
    | moved honest done =>
      obtain hsame | ⟨id, y, hput⟩ := (moves_of_step done).executions
      · exact hsame ▸ ih
      · rw [hput]
        exact Members.nodup_insert _ _ ih
    | called done =>
      obtain ⟨x, -, ⟨rfl, -⟩ | ⟨rfl, -⟩⟩ := callback_of_addCallback done
      · exact ih
      · exact Members.nodup_insert _ _ ih
    | closed => exact ih
    | stopped => exact ih

def IsIdle (e : Engine) : Prop := ∀ p ∈ e.executions, p.2.phase.isDone = true

/-- When all executions are done nothing is left but to write. -/
theorem IsIdle.eq_write {e after : Engine} {now : Instant} {m : Move} {events : List Event}
    (h : e.IsIdle) (hmoves : Moves e now m after events) : m = .write := by
  have hbusy {id : String} {x : Execution} (found : e.execution? id = some x)
      (hphase : x.phase.isDone = false) : False := by
    rw [h _ (Members.mem_of_lookup found)] at hphase
    cases hphase
  cases hmoves with
  | begin found phase => exact (hbusy found (by rw [phase]; rfl)).elim
  | chain found phase => exact (hbusy found (by rw [phase]; rfl)).elim
  | settle found phase => exact (hbusy found (by rw [phase]; rfl)).elim
  | expire found phase => exact (hbusy found (by rw [phase]; rfl)).elim
  | cancel found phase => exact (hbusy found (by rw [phase]; rfl)).elim
  | withdraw found phase => exact (hbusy found (by rw [phase]; rfl)).elim
  | write => rfl
  | release found phase => exact (hbusy found (by rw [phase]; rfl)).elim

end Engine

namespace Scheduler

variable {s : Scheduler} {n : Nat}

/-- When all executions are done, a turn does nothing but to write. -/
theorem take_of_isIdle (h : s.engine.IsIdle) (m : Engine.Move) :
    ∃ e history, s.take m = { s with engine := e, history := history } ∧ e.IsIdle ∧
      e.takes = s.engine.takes ∧ e.writing.length ≤ s.engine.writing.length := by
  unfold take
  split
  · rename_i after done
    obtain ⟨e, events, history, hstep, rfl⟩ := move_eq done
    have hmoves := Engine.moves_of_step hstep
    obtain rfl := h.eq_write hmoves
    refine ⟨e, history, rfl, ?_, (hmoves.logs "").takes, ?_⟩ <;> cases hmoves with
    | write first archive => first | exact h | simp [first]
  · exact ⟨s.engine, s.history, rfl, h, rfl, le_rfl⟩

theorem cancel_of_isIdle (h : s.engine.IsIdle) (id : String) : s.cancel id = s := by
  have hnone {m : Engine.Move} (hm : m ≠ .write) : s.move m = none := by
    rw [Option.eq_none_iff_forall_not_mem]
    intro after done
    obtain ⟨e, events, history, hstep, -⟩ := move_eq done
    exact hm (h.eq_write (Engine.moves_of_step hstep))
  rw [cancel, hnone Engine.Move.noConfusion, take, hnone Engine.Move.noConfusion]

theorem cancelAll_of_isIdle (h : s.engine.IsIdle) (ids : List String) : ids.foldl cancel s = s := by
  induction ids with
  | nil => rfl
  | cons id rest ih => rw [List.foldl_cons, cancel_of_isIdle h, ih]

/-- All executions are done, and that they are given up comes after so many turns and writes at the
most. -/
structure WindsUp (s : Scheduler) (n : Nat) : Prop where
  idle : s.engine.IsIdle
  takes : s.engine.takes = true
  tended : s.IsTended
  ready : ∃ before behind : List Engine.Move,
    s.ready = before.map .move ++ .cancelAll :: behind.map .move ∧
      before.length + s.engine.writing.length ≤ n

theorem isCancelled_of_isIdle (h : s.engine.IsIdle) {moves : List Engine.Move}
    (hready : s.ready = moves.map .move) : s.isCancelled = true := by
  rw [isCancelled, Bool.and_eq_true, List.all_eq_true]
  constructor
  · rw [hready, List.any_map, Bool.not_eq_true', List.any_eq_false]
    exact fun _ _ => Bool.false_ne_true
  · intro p hp
    have hdone := h p hp
    rw [Bool.not_eq_true', isBusy]
    cases hphase : p.2.phase with
    | done at_ o => rfl
    | _ =>
      rw [hphase] at hdone
      cases hdone

/-- What is ready stays so as the clock goes on, and what has become due comes after it. -/
theorem exists_ready_rouse (s : Scheduler) (now : Nat) {first : List Job}
    {moves : List Engine.Move} (hready : s.ready = first ++ moves.map .move) :
    ∃ more : List Engine.Move, ({ s with now := now }).rouse.ready = first ++ more.map .move := by
  refine ⟨moves ++ (s.timers.takeWhile fun u => decide (u.due ≤ now)).map Timer.move, ?_⟩
  rw [List.map_append, List.map_map, ← List.append_assoc, ← hready]
  rfl

theorem windsUp_rouse (hidle : s.engine.IsIdle) (htakes : s.engine.takes = true)
    {before behind : List Engine.Move}
    (hready : s.ready = before.map .move ++ .cancelAll :: behind.map .move)
    (hlength : before.length + s.engine.writing.length ≤ n) (now : Nat) :
    ({ s with now := now }).rouse.WindsUp n := by
  rw [← List.singleton_append, ← List.append_assoc] at hready
  obtain ⟨later, hlater⟩ := exists_ready_rouse s now hready
  rw [List.append_assoc, List.singleton_append] at hlater
  exact ⟨hidle, htakes, isTended_rouse _, before, later, hlater, hlength⟩

/-- A write takes up what is to be written first, and nothing but the release of its execution
becomes ready by it. -/
theorem record_of_takes (htakes : s.engine.takes = true) {r : Record} {rest : List Record}
    (hfirst : s.engine.writing = r :: rest) :
    s.record.engine.executions = s.engine.executions ∧ s.record.engine.takes = true ∧
      s.record.engine.writing = rest ∧ s.record.pace = s.pace ∧
      ∃ more : List Engine.Move, s.record.ready = s.ready ++ more.map .move := by
  obtain ⟨harchive, hstays⟩ := Bool.and_eq_true_iff.1 htakes
  obtain ⟨a, ha⟩ := Option.isSome_iff_exists.1 harchive
  have hlater : ({ s.engine with
      writing := rest, archive := some (Engine.write a r).1 } : Engine).takes = true := hstays
  rw [record_eq hfirst ha]
  split_ifs
  · exact ⟨rfl, hlater, rfl, rfl, [.release r.executionId], rfl⟩
  · exact ⟨rfl, hlater, rfl, rfl, [], (List.append_nil _).symm⟩

theorem WindsUp.record (h : s.WindsUp n) {w : Nat} (hwriter : s.writer = some w) (now : Nat) :
    ∃ j < n, ({ s.record with now := now }).rouse.WindsUp j := by
  obtain ⟨before, behind, hready, hlength⟩ := h.ready
  obtain ⟨r, rest, hfirst⟩ := List.exists_cons_of_ne_nil (h.tended.writing_ne_nil hwriter)
  obtain ⟨hexecutions, htakes, hwriting, -, more, hmore⟩ := record_of_takes h.takes hfirst
  rw [hfirst, List.length_cons] at hlength
  have hidle : s.record.engine.IsIdle := fun p hp => h.idle p (hexecutions ▸ hp)
  have hnext : s.record.ready = before.map .move ++ .cancelAll :: (behind ++ more).map .move := by
    rw [hmore, hready, List.map_append, List.append_assoc, List.cons_append]
  refine ⟨n - 1, by omega, windsUp_rouse hidle htakes hnext ?_ now⟩
  rw [hwriting]
  omega

theorem WindsUp.perform? (h : s.WindsUp n) (now : Nat) :
    ∃ after, s.perform? = some after ∧ after.pace = s.pace ∧
      (({ after with now := now }).rouse.isCancelled = true ∨
        ∃ j < n, ({ after with now := now }).rouse.WindsUp j) := by
  obtain ⟨before, behind, hready, hlength⟩ := h.ready
  cases before with
  | nil =>
    let t : Scheduler := { s with ready := behind.map .move }
    have hperform : s.perform? = some t := by
      rw [Scheduler.perform?, hready, List.map_nil, List.nil_append]
      exact congrArg some (cancelAll_of_isIdle (s := t) h.idle _)
    have hnone : t.ready = [] ++ behind.map .move := rfl
    obtain ⟨later, hlater⟩ := exists_ready_rouse t now hnone
    exact ⟨t, hperform, rfl, .inl (isCancelled_of_isIdle h.idle hlater)⟩
  | cons m rest =>
    let t : Scheduler := { s with ready := rest.map .move ++ .cancelAll :: behind.map .move }
    obtain ⟨e, history, htake, hidle, htakes, hwriting⟩ := take_of_isIdle (s := t) h.idle m
    have hperform : s.perform? = some { t with engine := e, history := history } := by
      rw [Scheduler.perform?, hready, List.map_cons, List.cons_append]
      exact congrArg some htake
    have hless : rest.length + e.writing.length ≤ n - 1 := by
      have hsame : t.engine.writing = s.engine.writing := rfl
      rw [hsame] at hwriting
      rw [List.length_cons] at hlength
      omega
    rw [List.length_cons] at hlength
    exact ⟨_, hperform, rfl, .inr ⟨n - 1, by omega,
      windsUp_rouse hidle (htakes.trans h.takes) (by rfl) hless now⟩⟩

/-- Each turn and each write brings closer that all executions are given up. -/
theorem WindsUp.step (h : s.WindsUp n) (limit : Option Nat) :
    ∃ after, s.step? limit = some after ∧ after.now ≤ s.now + s.pace.turn ∧ after.pace = s.pace ∧
      (after.isCancelled = true ∨ ∃ j < n, after.WindsUp j) := by
  unfold step?
  split_ifs with hwrite
  · obtain ⟨w, hwriter⟩ : ∃ w, s.writer = some w := by
      cases hwriter : s.writer with
      | none =>
        rw [hwriter] at hwrite
        cases hwrite
      | some w => exact ⟨w, rfl⟩
    obtain ⟨r, rest, hfirst⟩ := List.exists_cons_of_ne_nil (h.tended.writing_ne_nil hwriter)
    obtain ⟨-, -, -, hpace, -⟩ := record_of_takes h.takes hfirst
    exact ⟨_, rfl, Nat.add_le_add_left s.pace.turn_pos _, hpace, .inr (h.record hwriter _)⟩
  · obtain ⟨after, hperform, hpace, hnext⟩ := h.perform? (s.now + s.pace.turn)
    rw [hperform]
    exact ⟨_, rfl, le_rfl, hpace, hnext⟩

theorem runUntil_of_goal {goal : Scheduler → Bool} (h : goal s = true) (limit : Option Nat)
    (rounds : Nat) : runUntil goal limit rounds s = s := by
  cases rounds with
  | zero => rfl
  | succ rounds => rw [runUntil, h, Bool.true_or, if_pos rfl]

theorem WindsUp.runUntil (h : s.WindsUp n) (rounds : Nat) {limit : Nat} (hrounds : n < rounds)
    (hlimit : s.now + (n + 1) * s.pace.turn ≤ limit) :
    (Scheduler.runUntil isCancelled (some limit) rounds s).isCancelled = true := by
  induction rounds generalizing s n with
  | zero => omega
  | succ rounds ih =>
    cases hgoal : s.isCancelled with
    | true => rwa [runUntil_of_goal hgoal]
    | false =>
      have hturn := s.pace.turn_pos
      have hbefore : isOver (some limit) s.now = false := by
        refine decide_eq_false ?_
        nlinarith
      obtain ⟨after, hstep, hnow, hpace, hend⟩ := h.step (some limit)
      rw [Scheduler.runUntil, hgoal, hbefore, Bool.or_false, if_neg Bool.false_ne_true, hstep]
      dsimp only
      obtain hcancelled | ⟨j, hj, hafter⟩ := hend
      · rwa [runUntil_of_goal hcancelled]
      · refine ih hafter (by omega) ?_
        rw [hpace]
        have hless : (j + 1) * s.pace.turn ≤ n * s.pace.turn := Nat.mul_le_mul_right _ hj
        rw [Nat.add_mul, Nat.one_mul] at hlimit
        omega

/-- When all executions are done, closing comes to its end, unless the turns that are still to be
taken take longer than closing waits. -/
theorem isSome_close? (hidle : s.engine.IsIdle) (htakes : s.engine.takes = true)
    (htended : s.IsTended) {moves : List Engine.Move} (hready : s.ready = moves.map .move)
    (hsoon : (moves.length + s.engine.writing.length + 1) * s.pace.turn ≤ closingTime) :
    s.close?.isSome = true := by
  rw [close?]
  split_ifs with hclosed
  · rfl
  · have hwinds : WindsUp { s with engine := s.engine.close, ready := s.ready ++ [.cancelAll] }
        (moves.length + s.engine.writing.length) :=
      ⟨hidle, htakes, htended, moves, [], by rw [hready]; rfl, le_rfl⟩
    have hturn := s.pace.turn_pos
    have hcancelled := hwinds.runUntil closingTime (by nlinarith)
      (Nat.add_le_add_left hsoon s.now)
    rw [waitFor, if_pos hcancelled]
    rfl

end Scheduler

end ReminderFlow
