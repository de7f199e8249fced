import ReminderFlow.Proofs.Run.Crash
import ReminderFlow.Proofs.Run.Ensures

namespace ReminderFlow.Chain

/-- A move as far as it can be foreseen: not which reply a call will get. -/
def Move.foreseen : Move → Move
  | reply _ => reply (.ok .null)
  | m => m

/-- The move by which a chain itself goes on. -/
def turn? : Chain → Option Move
  | created .. => some .begin
  | ready .. => some .enter
  | waiting .. => some .wake
  | working _ _ started => some (if started then .reply (.ok .null) else .call)
  | forked _ branches => if branches.all fun c => c.result?.isSome then some .join else none
  | ended _ => none

variable {knows : String → Bool} {branch : String}

theorem foreseen_of_turn? {c : Chain} {move : Move} (h : c.turn? = some move) :
    move.foreseen = move := by
  cases c with
  | working stop call started => cases started <;> cases h <;> rfl
  | forked stop branches =>
    rw [turn?] at h
    split_ifs at h
    cases h
    rfl
  | ended r => cases h
  | _ =>
    cases h
    rfl

theorem isSome_step_iff {move : Move} {c : Chain} :
    (step knows branch move c).isSome = true ↔ c.turn? = some move.foreseen := by
  rw [step, Option.isSome_map]
  cases c with
  | ready m name doc =>
    cases move with
    | enter =>
      simp only [move?, turn?, Move.foreseen]
      cases m.state? name <;> simp
    | _ => simp [move?, turn?, Move.foreseen]
  | working stop call started => cases started <;> cases move <;> simp [move?, turn?, Move.foreseen]
  | forked stop branches =>
    cases move with
    | join =>
      simp only [move?, Option.isSome_map, turn?, Move.foreseen]
      by_cases hall : ∀ c ∈ branches, c.result? ≠ none
      · obtain ⟨results, rfl⟩ := exists_results hall
        have hresults := results_eq_some_iff.2 (rfl : results.map ended = results.map ended)
        simp [hresults, result?]
      · have hnone : branches.mapM result? = none := by
          rw [Option.eq_none_iff_forall_not_mem]
          intro results hresults
          exact hall fun c hc => result?_ne_none_of_results hresults hc
        push Not at hall
        obtain ⟨c, hmem, hc⟩ := hall
        have hsome : ¬(branches.all fun c => c.result?.isSome) = true := by
          rw [List.all_eq_true]
          intro h
          simpa [hc] using h c hmem
        rw [hnone, if_neg hsome]
        simp
    | _ =>
      simp only [move?, turn?, Move.foreseen]
      split_ifs <;> simp
  | _ => cases move <;> simp [move?, turn?, Move.foreseen]

/-- What can be done at an address is the turn of the chain that stands there. -/
theorem isSome_stepAt_iff {address : List Nat} {move : Move} {c : Chain} :
    (stepAt knows move address branch c).isSome = true ↔
      ∃ d, c.at? address = some d ∧ d.turn? = some move.foreseen := by
  induction address generalizing branch c with
  | nil => simp [stepAt, at?, isSome_step_iff]
  | cons i rest ih =>
    cases c with
    | forked stop branches =>
      rw [at?, Option.isSome_iff_exists]
      constructor
      · rintro ⟨⟨next, events⟩, made⟩
        obtain ⟨child, after, hchild, hafter, -⟩ := stepAt_cons_iff.1 made
        rw [hchild]
        exact ih.1 (Option.isSome_iff_exists.2 ⟨_, hafter⟩)
      · rintro ⟨d, hat, hturn⟩
        obtain ⟨child, hchild, hat⟩ := Option.bind_eq_some_iff.1 hat
        obtain ⟨⟨after, events⟩, hafter⟩ := Option.isSome_iff_exists.1 (ih.2 ⟨d, hat, hturn⟩)
        exact ⟨_, stepAt_cons_iff.2 ⟨child, after, hchild, hafter, rfl⟩⟩
    | _ => simp [stepAt, at?]

/-- Unless a chain has ended, it is some chain's turn in its tree. -/
theorem exists_turn {c : Chain} (h : c.result? = none) :
    ∃ address d move, c.at? address = some d ∧ d.turn? = some move := by
  obtain ⟨address, move, next, events, -, made⟩ | ⟨address, stop, call, hat⟩ :=
    goes_on (fun _ => true) "" c h
  · obtain ⟨d, hat, hturn⟩ := isSome_stepAt_iff.1 (Option.isSome_iff_exists.2 ⟨_, made⟩)
    exact ⟨address, d, _, hat, hturn⟩
  · exact ⟨address, _, _, hat, rfl⟩

/-- The turns that come up by a move at an address, from which the tree has become what it is. -/
inductive BringsUp (address : List Nat) (next : Chain) : List Nat → Move → Prop
  | itself {d : Chain} {move : Move} (stands : next.at? address = some d)
      (turn : d.turn? = some move) : BringsUp address next address move
  | branch {stop : Stop} {machines : List Machine} {doc : Document} {i : Nat}
      (stands : next.at? address = some (forked stop (machines.map fun m => created m doc)))
      (within : i < machines.length) : BringsUp address next (address ++ [i]) .begin
  | fork {above : List Nat} {i : Nat} {r : Except Failure Document} {stop : Stop}
      {branches : List Chain} (below : address = above ++ [i])
      (stands : next.at? address = some (ended r)) (forks : next.at? above = some (forked stop branches))
      (all : (branches.all fun c => c.result?.isSome) = true) : BringsUp address next above .join

theorem BringsUp.down {address above : List Nat} {i : Nat} {move : Move} {child : Chain} {stop : Stop}
    {branches : List Chain} (h : BringsUp address child above move) (hchild : branches[i]? = some child) :
    BringsUp (i :: address) (forked stop branches) (i :: above) move := by
  have hdown {other : List Nat} {d : Chain} (hat : child.at? other = some d) :
      (forked stop branches).at? (i :: other) = some d := by
    rw [at?, hchild]
    exact hat
  cases h with
  | itself stands turn => exact .itself (hdown stands) turn
  | branch stands within => exact .branch (hdown stands) within
  | fork below stands forks all =>
    subst below
    exact .fork rfl (hdown stands) (hdown forks) all

/-- A chain that has moved itself brings up its own turn, or the first ones of its branches. -/
theorem turn_of_step {move turn : Move} {c next d : Chain} {other : List Nat} {shown : List Event}
    (made : step knows branch move c = some (next, shown)) (hat : next.at? other = some d)
    (hturn : d.turn? = some turn) : BringsUp [] next other turn := by
  cases other with
  | nil => exact .itself hat hturn
  | cons i rest =>
    obtain ⟨seen, hmove, -⟩ := move?_of_step made
    rcases isNew_of_move? hmove with hleaf | ⟨stop, machines, doc, rfl⟩
    · cases next <;> first | exact hleaf.elim | cases hat
    · obtain ⟨child, hchild, hat⟩ := Option.bind_eq_some_iff.1 hat
      rw [List.getElem?_map] at hchild
      obtain ⟨m, hm, rfl⟩ := Option.map_eq_some_iff.1 hchild
      cases rest with
      | nil =>
        cases hat
        cases hturn
        exact .branch rfl (List.getElem?_eq_some_iff.1 hm).1
      | cons => cases hat

/-- A chain below which another one has moved has ended only if it was that one. -/
theorem eq_nil_of_ended {address : List Nat} {move : Move} {c next : Chain} {shown : List Event}
    (made : stepAt knows move address branch c = some (next, shown))
    (hended : next.result?.isSome = true) : address = [] := by
  cases address with
  | nil => rfl
  | cons i rest =>
    cases c with
    | forked stop branches =>
      obtain ⟨_, _, -, -, rfl⟩ := stepAt_cons_iff.1 made
      cases hended
    | _ => cases made

theorem eq_ended_of_isSome {c : Chain} (h : c.result?.isSome = true) : ∃ r, c = .ended r := by
  cases c with
  | ended r => exact ⟨r, rfl⟩
  | _ => cases h

/-- It was a chain's turn before a move elsewhere, or the move has brought its turn up. -/
theorem turn_of_stepAt {address other : List Nat} {move turn : Move} {c next d : Chain}
    {shown : List Event} (made : stepAt knows move address branch c = some (next, shown))
    (hat : next.at? other = some d) (hturn : d.turn? = some turn) :
    (other ≠ address ∧ c.at? other = some d) ∨ BringsUp address next other turn := by
  induction address generalizing branch c next other with
  | nil => exact .inr (turn_of_step made hat hturn)
  | cons j below ih =>
    cases c with
    | forked stop branches =>
      obtain ⟨child, moved, hchild, hmoved, rfl⟩ := stepAt_cons_iff.1 made
      have hself := List.getElem?_set_self (a := moved) (List.getElem?_eq_some_iff.1 hchild).1
      cases other with
      | nil =>
        -- It is the turn of a fork above the move: its last branch has ended.
        cases hat
        rw [turn?] at hturn
        split_ifs at hturn with hall
        cases hturn
        have hended := List.all_eq_true.1 hall moved (List.mem_of_getElem? hself)
        obtain rfl := eq_nil_of_ended hmoved hended
        obtain ⟨r, rfl⟩ := eq_ended_of_isSome hended
        exact .inr (.fork (List.nil_append [j]).symm (by rw [at?, hself]; rfl) rfl hall)
      | cons i rest =>
        by_cases hij : j = i
        · subst hij
          rw [at?, hself] at hat
          rcases ih hmoved hat with ⟨hne, hbefore⟩ | hbrings
          · refine .inl ⟨fun heq => hne (List.cons_inj_right j |>.1 heq), ?_⟩
            rw [at?, hchild]
            exact hbefore
          · exact .inr (hbrings.down hself)
        · rw [at?, List.getElem?_set_ne hij] at hat
          refine .inl ⟨fun heq => hij (List.cons.inj heq).1.symm, ?_⟩
          rw [at?]
          exact hat
    | _ => cases made

/-- If the chain can go on by itself, then neither by beginning nor by a reply. -/
def HasBegun (c : Chain) : Prop := ∀ move, c.turn? = some move → move ≠ .begin ∧ ∀ r, move ≠ .reply r

theorem hasBegun_ended (r : Except Failure Document) : (ended r).HasBegun := by
  rintro move ⟨⟩

theorem hasBegun_ready (m : Machine) (name : String) (doc : Document) :
    (ready m name doc).HasBegun := by
  rintro move ⟨⟩
  exact ⟨Move.noConfusion, fun _ => Move.noConfusion⟩

theorem hasBegun_jump (m : Machine) (target : Value) (doc : Document) :
    (jump m target doc).HasBegun := by
  unfold jump
  split
  · exact hasBegun_ready _ _ _
  · exact hasBegun_ended _

theorem hasBegun_follow (m : Machine) (next : Value) (doc : Document) :
    (follow m next doc).HasBegun := by
  unfold follow
  split_ifs
  · exact hasBegun_ended _
  · exact hasBegun_jump m next doc

theorem hasBegun_take (stop : Stop) (call : Call) (reply : Except Fault Datum) :
    (take stop call reply).HasBegun := by
  unfold take
  split
  · exact hasBegun_ended _
  · split
    · exact hasBegun_follow _ _ _
    · exact hasBegun_ended _

theorem hasBegun_enterState (m : Machine) (name : String) (doc : Document) (s : State) :
    (enterState knows m name doc s).HasBegun := by
  cases s with
  | succeed => exact hasBegun_ended _
  | fail cause error => exact hasBegun_ended _
  | pass target => exact hasBegun_follow m target doc
  | choice rules default =>
    rw [enterState]
    split
    · exact hasBegun_jump m _ doc
    · exact hasBegun_ended _
  | wait secondsPath seconds target =>
    rw [enterState]
    split
    · rintro move ⟨⟩
      exact ⟨Move.noConfusion, fun _ => Move.noConfusion⟩
    · exact hasBegun_ended _
  | task resource inputPath outputPath target =>
    rw [enterState]
    split
    · rintro move ⟨⟩
      exact ⟨Move.noConfusion, fun _ => Move.noConfusion⟩
    · exact hasBegun_ended _
  | parallel branches strays target =>
    intro move hmove
    rw [enterState, turn?] at hmove
    split_ifs at hmove
    cases hmove
    exact ⟨Move.noConfusion, fun _ => Move.noConfusion⟩

/-- A chain that has moved has begun, and waits for a reply only if it has made its call. -/
theorem hasBegun_of_move? {move : Move} {c next : Chain} {seen : List Event}
    (hmove : move? knows branch move c = some (next, seen)) (hcall : move ≠ .call) :
    next.HasBegun := by
  unfold move? at hmove
  split at hmove
  case h_1 =>
    cases hmove
    exact hasBegun_ready _ _ _
  case h_2 m name doc =>
    split at hmove <;> cases hmove
    · exact hasBegun_enterState m name doc _
    · exact hasBegun_ended _
  case h_3 =>
    cases hmove
    exact hasBegun_follow _ _ _
  case h_4 => exact absurd rfl hcall
  case h_5 =>
    cases hmove
    exact hasBegun_take _ _ _
  case h_6 stop branches =>
    obtain ⟨results, -, hnext⟩ := Option.map_eq_some_iff.1 hmove
    split at hnext <;> cases hnext
    · exact hasBegun_follow _ _ _
    · exact hasBegun_ended _
  case h_7 => cases hmove

theorem Ensures.pos_of_created {replies : Replies} {n : Nat} {Q : Post} {m : Machine} {doc : Document}
    (h : Ensures knows replies n Q (Chain.created m doc)) : 1 ≤ n := by
  cases h with
  | created begun => exact Nat.succ_le_succ (Nat.zero_le _)

/-- A chain that forks has as many moves left as branches at the least. -/
theorem Ensures.length_lt {replies : Replies} {n : Nat} {Q : Post} {stop : Stop}
    {machines : List Machine} {doc : Document}
    (h : Ensures knows replies n Q (Chain.forked stop (machines.map fun m => Chain.created m doc))) :
    machines.length < n := by
  cases h with
  | @forked n _ _ _ aims length each joined =>
    have hmoves : ∀ k ∈ aims.map Aim.moves, 1 ≤ k := by
      intro k hk
      obtain ⟨aim, haim, rfl⟩ := List.mem_map.1 hk
      obtain ⟨i, hi⟩ := List.getElem?_of_mem haim
      have hlt : i < (machines.map fun m => Chain.created m doc).length :=
        length ▸ (List.getElem?_eq_some_iff.1 hi).1
      have hcreated := each i _ aim (List.getElem?_eq_getElem hlt) hi
      rw [List.getElem_map] at hcreated
      exact hcreated.pos_of_created
    have hsum := List.length_le_sum_of_one_le _ hmoves
    rw [List.length_map, length, List.length_map] at hsum
    omega

end ReminderFlow.Chain
