import ReminderFlow.Proofs.Engine.Found
import ReminderFlow.Proofs.Engine.Goes
import ReminderFlow.Proofs.Engine.Safety
import ReminderFlow.Proofs.Run.Address

namespace ReminderFlow

namespace Chain

/-- The state that a chain enters by the move. -/
def entered? : Move → Chain → Option String
  | .enter, ready _ state _ => some state
  | _, _ => none

/-- The machine has the state that the chain is about to enter. -/
def Knows (d : Chain) : Prop :=
  ∀ m state doc, d = ready m state doc → ∃ s, m.state? state = some s

theorem Sound.knows {d : Chain} (h : d.Sound) : d.Knows := by
  rintro m state doc rfl
  cases h with
  | ready accepted known => exact Machine.exists_state?_of_mem_names known

variable {knows : String → Bool} {name : String} {move : Move} {d after : Chain}

/-- What is to be seen of a move sets the pointer to the state that is entered, and nothing else. -/
theorem tracked_of_move? {seen : List Event} (hmove : move? knows name move d = some (after, seen))
    (hknows : d.Knows) (states : List (String × String)) :
    Engine.tracked states seen = match entered? move d with
      | some state => Members.insert name state states
      | none => states := by
  unfold move? at hmove
  split at hmove
  case h_2 m state doc =>
    obtain ⟨s, hs⟩ := hknows m state doc rfl
    rw [hs] at hmove
    cases hmove
    rfl
  case h_5 reply stop call =>
    cases hmove
    obtain h | ⟨text, h⟩ := refusal_cases name call.executor reply <;> rw [h] <;> rfl
  case h_6 stop branches =>
    obtain ⟨results, -, hnext⟩ := Option.map_eq_some_iff.1 hmove
    split at hnext <;> cases hnext <;> rfl
  case h_7 => cases hmove
  all_goals
    cases hmove
    rfl

theorem tracked_ending (states : List (String × String)) (name : String) (c : Chain) :
    Engine.tracked states (ending name c) =
      if c.result?.isSome ∧ name ≠ "" then Members.erase name states else states := by
  unfold ending leaving
  split_ifs <;> first | rfl | tauto

theorem lookup_of_step_of_ne {shown : List Event}
    (made : step knows name move d = some (after, shown)) (hknows : d.Knows) {other : String}
    (hne : other ≠ name) (states : List (String × String)) :
    (Engine.tracked states shown).lookup other = states.lookup other := by
  obtain ⟨seen, hmove, rfl⟩ := move?_of_step made
  have hseen : (Engine.tracked states seen).lookup other = states.lookup other := by
    rw [tracked_of_move? hmove hknows]
    split
    · exact Members.lookup_insert_of_ne hne _ _
    · rfl
  rw [Engine.tracked_append, tracked_ending]
  split_ifs
  · rw [Members.lookup_erase_of_ne hne, hseen]
  · exact hseen

/-- The pointer of the chain that moves: it is gone if a branch ends, and else it is to the state
that the chain has entered last. -/
theorem lookup_of_step {shown : List Event} (made : step knows name move d = some (after, shown))
    (hknows : d.Knows) (states : List (String × String)) :
    (Engine.tracked states shown).lookup name =
      if after.result?.isSome ∧ name ≠ "" then none
      else (entered? move d).or (states.lookup name) := by
  obtain ⟨seen, hmove, rfl⟩ := move?_of_step made
  rw [Engine.tracked_append, tracked_ending, tracked_of_move? hmove hknows]
  split_ifs with hleft
  · exact Members.lookup_erase_self name _
  · cases entered? move d with
    | none => rfl
    | some state => exact Members.lookup_insert_self name state states

theorem entered?_eq_some {move : Move} {d : Chain} {state : String}
    (h : entered? move d = some state) : move = .enter ∧ ∃ m doc, d = ready m state doc := by
  unfold entered? at h
  split at h
  case h_1 m name doc =>
    cases h
    exact ⟨rfl, m, doc, rfl⟩
  case h_2 => cases h

/-- Only a chain that is about to enter a state can move by entering one. -/
theorem ne_enter_of_step {shown : List Event} (made : step knows name move d = some (after, shown))
    (h : entered? move d = none) : move ≠ .enter := by
  rintro rfl
  obtain ⟨seen, hmove, -⟩ := move?_of_step made
  cases d with
  | ready m state doc => cases h
  | _ => cases hmove

end Chain

namespace Engine

open Chain (Reaches entered?)

theorem Happens.unique {e after after' : Engine} {a : Action} {events events' : List Event}
    (h : Happens e a after events) (h' : Happens e a after' events') :
    after = after' ∧ events = events' := by
  cases h with
  | started fresh prepared done found =>
    cases h' with
    | started fresh' prepared' done' =>
      cases prepared.symm.trans prepared'
      cases done.symm.trans done'
      exact ⟨rfl, rfl⟩
    | refused refused => cases prepared.symm.trans (prepare_of_enter refused found)
  | refused refused =>
    cases h' with
    | started fresh prepared done found =>
      cases prepared.symm.trans (prepare_of_enter refused found)
    | refused => exact ⟨rfl, rfl⟩
  | moved honest done =>
    cases h' with
    | moved honest' done' =>
      cases done.symm.trans done'
      exact ⟨rfl, rfl⟩
  | called done =>
    cases h' with
    | called done' =>
      cases done.symm.trans done'
      exact ⟨rfl, rfl⟩
  | closed =>
    cases h'
    exact ⟨rfl, rfl⟩
  | stopped =>
    cases h'
    exact ⟨rfl, rfl⟩

/-- The actions of a run determine the engine after it and what was to be seen. -/
theorem Run.unique {first e e' : Engine} {actions : List Action} {events events' : List Event}
    (h : Run first actions e events) (h' : Run first actions e' events') :
    e = e' ∧ events = events' := by
  induction h generalizing e' events' with
  | rest =>
    generalize hactions : ([] : List Action) = actions at h'
    cases h' with
    | rest => exact ⟨rfl, rfl⟩
    | next => simp at hactions
  | @next actions a d after events more before happens ih =>
    generalize hactions : actions ++ [a] = all at h'
    cases h' with
    | rest => simp at hactions
    | next before' happens' =>
      obtain ⟨rfl, rfl⟩ := List.append_inj' hactions rfl |>.imp_right List.singleton_inj.1
      obtain ⟨rfl, rfl⟩ := ih before'
      obtain ⟨rfl, rfl⟩ := happens.unique happens'
      exact ⟨rfl, rfl⟩

/-- After the action, what the chain at an address had entered before no longer counts: it enters
another state, or a chain above it goes on, which is the end of all below. -/
def Action.Outdates (id : String) (address : List Nat) : Action → Prop
  | move _ (.chain other at_ m) => other = id ∧ at_ <+: address ∧ (at_ = address → m = .enter)
  | _ => False

/-- The state that the chain at an address of an execution has entered last. -/
inductive LastEntered (first : Engine) (id : String) (address : List Nat) :
    List Action → String → Prop where
  | enters {actions : List Action} {e : Engine} {events : List Event} {now : Instant}
      {name state : String} {m : Machine} {s : State} {doc : Document}
      (run : Run first actions e events) (stands : e.Stands id address name (.ready m state doc))
      (known : m.state? state = some s) :
      LastEntered first id address (actions ++ [.move now (.chain id address .enter)]) state
  | since {actions : List Action} {a : Action} {state : String}
      (before : LastEntered first id address actions state) (other : ¬a.Outdates id address) :
      LastEntered first id address (actions ++ [a]) state

/-- A chain of that name is active, and this is the state that it has entered last. A branch is
active until it has ended, and the main chain as long as the execution runs. -/
def PointsTo (first : Engine) (actions : List Action) (id : String) (c : Chain)
    (name state : String) : Prop :=
  ∃ address d, Reaches "" c address name d ∧ (address = [] ∨ d.result? = none) ∧
    LastEntered first id address actions state

variable {first e : Engine} {actions : List Action} {events : List Event} {id : String}

theorem LastEntered.cases_concat {address : List Nat} {a : Action} {state : String}
    (h : LastEntered first id address (actions ++ [a]) state) :
    (∃ e events now name m s doc, a = .move now (.chain id address .enter) ∧
        Run first actions e events ∧ e.Stands id address name (.ready m state doc) ∧
        m.state? state = some s) ∨
      LastEntered first id address actions state ∧ ¬a.Outdates id address := by
  generalize hactions : actions ++ [a] = all at h
  cases h with
  | @enters _ e events now name _ m s doc run stands known =>
    obtain ⟨rfl, rfl⟩ := List.append_inj' hactions rfl |>.imp_right List.singleton_inj.1
    exact .inl ⟨e, events, now, name, m, s, doc, rfl, run, stands, known⟩
  | since before other =>
    obtain ⟨rfl, rfl⟩ := List.append_inj' hactions rfl |>.imp_right List.singleton_inj.1
    exact .inr ⟨before, other⟩

/-- Only moves of its own chains change what an execution has entered last. -/
theorem lastEntered_concat_iff {a : Action}
    (ha : ∀ now at_ move, a ≠ .move now (.chain id at_ move)) {address : List Nat}
    {state : String} :
    LastEntered first id address (actions ++ [a]) state ↔
      LastEntered first id address actions state := by
  constructor
  · intro h
    obtain ⟨e, events, now, name, m, s, doc, rfl, -⟩ | ⟨hbefore, -⟩ := h.cases_concat
    · exact absurd rfl (ha _ _ _)
    · exact hbefore
  · intro h
    refine h.since fun hout => ?_
    cases a with
    | move now move =>
      cases move with
      | chain other at_ m =>
        obtain ⟨rfl, -⟩ := hout
        exact ha _ _ _ rfl
      | _ => exact hout
    | _ => exact hout

section Move

variable {x : Execution} {c next : Chain} {at_ : List Nat} {move : Chain.Move} {now : Instant}
  {shown : List Chain.Event}

/-- Where a chain of that name stands, it is the one that its pointer tells of. -/
theorem pointsTo_iff_of_reaches {name state : String} {d : Chain} (hd : Chain.Reaches "" c at_ name d) :
    PointsTo first actions id c name state ↔
      (at_ = [] ∨ d.result? = none) ∧ LastEntered first id at_ actions state := by
  constructor
  · rintro ⟨address, d', hd', hactive, hentered⟩
    obtain rfl := hd'.address_unique hd
    obtain ⟨-, rfl⟩ := hd'.unique hd
    exact ⟨hactive, hentered⟩
  · exact fun ⟨hactive, hentered⟩ => ⟨at_, d, hd, hactive, hentered⟩

/-- A chain that moves has entered a state by that, or what it had entered before. -/
theorem lastEntered_self_iff (hrun : Run first actions e events) (hx : e.execution? id = some x)
    (hphase : x.phase = .running c) {mover state : String} {d after : Chain}
    (hd : Chain.Reaches "" c at_ mover d)
    (hstep : d.step e.registry.contains mover move = some (after, shown)) (hknows : d.Knows) :
    LastEntered first id at_ (actions ++ [.move now (.chain id at_ move)]) state ↔
      entered? move d = some state ∨
        entered? move d = none ∧ LastEntered first id at_ actions state := by
  constructor
  · intro hentered
    obtain ⟨e', events', now', name', m, s, doc, haction, hrun', ⟨x', c', hx', hphase', hd'⟩, -⟩ |
      ⟨hearlier, hother⟩ := hentered.cases_concat
    · left
      cases haction
      obtain ⟨rfl, rfl⟩ := hrun.unique hrun'
      obtain rfl := Option.some.inj (hx.symm.trans hx')
      obtain rfl := Phase.running.inj (hphase.symm.trans hphase')
      obtain ⟨rfl, rfl⟩ := hd.unique hd'
      rfl
    · refine .inr ⟨Option.eq_none_iff_forall_ne_some.2 fun entered hentry => ?_, hearlier⟩
      obtain ⟨rfl, -⟩ := Chain.entered?_eq_some hentry
      exact hother ⟨rfl, List.prefix_refl _, fun _ => rfl⟩
  · rintro (hentry | ⟨hentry, hearlier⟩)
    · obtain ⟨rfl, m, doc, rfl⟩ := Chain.entered?_eq_some hentry
      obtain ⟨s, hs⟩ := hknows m state doc rfl
      exact .enters hrun ⟨x, c, hx, hphase, hd⟩ hs
    · have hmove := Chain.ne_enter_of_step hstep hentry
      exact hearlier.since fun hout => hmove (hout.2.2 rfl)

/-- What is below a chain that moves is outdated by that, and nothing else. -/
theorem lastEntered_other_iff {address : List Nat} (hne : address ≠ at_) {state : String} :
    LastEntered first id address (actions ++ [.move now (.chain id at_ move)]) state ↔
      LastEntered first id address actions state ∧ ¬at_ <+: address := by
  constructor
  · intro hentered
    obtain ⟨e', events', now', name', m, s, doc, haction, -⟩ | ⟨hearlier, hother⟩ :=
      hentered.cases_concat
    · cases haction
      exact absurd rfl hne
    · exact ⟨hearlier, fun hbelow => hother ⟨rfl, hbelow, fun heq => absurd heq.symm hne⟩⟩
  · exact fun ⟨hearlier, hbelow⟩ => hearlier.since fun hout => hbelow hout.2.1

/-- The pointers of the other chains still tell of them. -/
theorem pointsTo_other_iff {mover name state : String} {d after : Chain}
    (made : c.stepAt e.registry.contains move at_ "" = some (next, shown))
    (hd : Chain.Reaches "" c at_ mover d) (hactive : d.result? = none)
    (hafter : Chain.Reaches "" next at_ mover after) (hname : name ≠ mover) :
    PointsTo first (actions ++ [.move now (.chain id at_ move)]) id next name state ↔
      PointsTo first actions id c name state := by
  constructor
  · rintro ⟨address, d', hd', hactive', hentered⟩
    have hne : address ≠ at_ := by
      rintro rfl
      exact hname (hd'.unique hafter).1
    obtain ⟨hearlier, hbelow⟩ := (lastEntered_other_iff hne).1 hentered
    obtain ⟨d'', hd'', hopen⟩ := hd'.before_stepAt hbelow made
    exact ⟨address, d'', hd'', hactive'.imp_right hopen, hearlier⟩
  · rintro ⟨address, d', hd', hactive', hentered⟩
    have hne : address ≠ at_ := by
      rintro rfl
      exact hname (hd'.unique hd).1
    have hopen : d'.result? = none := by
      rcases hactive' with rfl | hopen
      · -- The main chain has not ended, as a chain of its tree moves.
        cases hd'
        exact hd.result?_eq_none hactive
      · exact hopen
    obtain ⟨hbelow, d'', hd'', hopen'⟩ := hd'.after_stepAt hopen hne made
    exact ⟨address, d'', hd'', .inr hopen', (lastEntered_other_iff hne).2 ⟨hentered, hbelow⟩⟩

/-- Right after a move of a chain, the pointers tell of the chains as they stand now. -/
theorem pointsTo_of_move (hrun : Run first actions e events) (hx : e.execution? id = some x)
    (hphase : x.phase = .running c) (hsound : c.Sound)
    (made : c.stepAt e.registry.contains move at_ "" = some (next, shown))
    (hbefore : ∀ name state, x.states.lookup name = some state ↔
      PointsTo first actions id c name state) (name state : String) :
    (tracked x.states shown).lookup name = some state ↔
      PointsTo first (actions ++ [.move now (.chain id at_ move)]) id next name state := by
  obtain ⟨mover, d, after, hd, hstep, hafter⟩ := Chain.reaches_of_stepAt made
  have hknows : d.Knows := (hsound.at? hd.at?).knows
  have hactive : d.result? = none := Chain.result?_eq_none_of_step hstep
  by_cases hname : name = mover
  · subst hname
    have hmain : name = "" ↔ at_ = [] := by
      constructor
      · rintro rfl
        cases at_ with
        | nil => rfl
        | cons => exact absurd rfl hd.name_ne
      · rintro rfl
        cases hd
        rfl
    have hlast : x.states.lookup name = some state ↔ LastEntered first id at_ actions state := by
      rw [hbefore, pointsTo_iff_of_reaches hd]
      exact and_iff_right (.inr hactive)
    rw [pointsTo_iff_of_reaches hafter, Chain.lookup_of_step hstep hknows,
      lastEntered_self_iff hrun hx hphase hd hstep hknows]
    split_ifs with hleft
    · -- A branch that has ended by its move has no pointer any more.
      rw [ne_eq, hmain] at hleft
      refine iff_of_false not_false fun hactive' => ?_
      rcases hactive'.1 with h | h
      · exact hleft.2 h
      · rw [h] at hleft
        cases hleft.1
    · have hactive' : at_ = [] ∨ after.result? = none := by
        rw [← hmain, ← Option.not_isSome_iff_eq_none]
        tauto
      rw [and_iff_right hactive', Option.or_eq_some_iff, hlast]
  · rw [Chain.lookup_of_step_of_ne hstep hknows hname, hbefore]
    exact (pointsTo_other_iff made hd hactive hafter hname).symm

end Move

/-- What is known of the pointers of an execution in each phase: there are none unless it runs. -/
def Pointed (first : Engine) (actions : List Action) (id : String) (x : Execution) : Prop :=
  match x.phase with
  | .scheduled => x.states = [] ∧ ∀ address state, ¬LastEntered first id address actions state
  | .running c => (Members.keys x.states).Nodup ∧ ∀ name state,
      x.states.lookup name = some state ↔ PointsTo first actions id c name state
  | _ => x.states = []

theorem pointed_concat_iff {a : Action} (ha : ∀ now at_ move, a ≠ .move now (.chain id at_ move))
    {x : Execution} : Pointed first (actions ++ [a]) id x ↔ Pointed first actions id x := by
  unfold Pointed PointsTo
  simp only [lastEntered_concat_iff ha]

theorem Pointed.change {x y : Execution} (h : Pointed first actions id x) (hchange : Change x y) :
    Pointed first actions id y := by
  unfold Pointed at h
  cases hchange with
  | begin phase =>
    rw [phase] at h
    obtain ⟨hnothing, hnever⟩ := h
    refine ⟨by rw [hnothing]; exact List.nodup_nil, fun name state => ?_⟩
    rw [hnothing]
    constructor
    · intro hlookup
      cases hlookup
    · rintro ⟨address, d, -, -, hentered⟩
      exact absurd hentered (hnever address state)
  | settle => rfl
  | cut => rfl
  | release phase =>
    rw [phase] at h
    exact h
  | callback => exact h

theorem Pointed.nothing {x : Execution} (h : Pointed first actions id x)
    (hrests : ∀ c, x.phase ≠ .running c) : x.states = [] := by
  unfold Pointed at h
  split at h
  case h_1 => exact h.1
  case h_2 c hphase => exact absurd hphase (hrests c)
  case h_3 => exact h

theorem nodup_tracked {states : List (String × String)} (h : (Members.keys states).Nodup)
    (events : List Chain.Event) : (Members.keys (tracked states events)).Nodup := by
  induction events generalizing states with
  | nil => exact h
  | cons event rest ih => exact ih (nodup_track h event)

theorem states_follow (e : Engine) (now : Instant) (id : String) (x : Execution)
    (seen : List Chain.Event) :
    (e.follow now id x seen).2.1 = { x with states := tracked x.states seen } := by
  induction seen generalizing e x with
  | nil => rfl
  | cons event rest ih =>
    obtain ⟨d, records, -, -, -, heq⟩ := e.follow_cons now id x event rest
    rw [heq]
    exact ih d { x with states := event.track x.states }

theorem Moves.states_chain {after : Engine} {now : Instant} {at_ : List Nat} {move : Chain.Move}
    (h : Moves e now (.chain id at_ move) after events) :
    ∃ x c next shown, e.execution? id = some x ∧ x.phase = .running c ∧
      c.stepAt e.registry.contains move at_ "" = some (next, shown) ∧
      after.execution? id =
        some { x with phase := .running next, states := tracked x.states shown } := by
  cases h with
  | @chain _ _ _ x y c next shown d _ found phase made followed =>
    have hy := e.states_follow now id { x with phase := .running next } shown
    rw [followed] at hy
    refine ⟨x, c, next, shown, found, phase, made, ?_⟩
    rw [← hy]
    exact d.execution?_put_self id y

theorem not_lastEntered_nil {address : List Nat} {state : String} :
    ¬LastEntered first id address [] state := by
  intro h
  generalize hactions : ([] : List Action) = actions at h
  cases h <;> simp at hactions

/-- A move of a chain keeps what is known of the pointers of its execution. -/
theorem Pointed.move_chain {x : Execution} {after : Engine} {now : Instant} {at_ : List Nat}
    {move : Chain.Move} {seen : List Event} (h : Pointed first actions id x)
    (hrun : Run first actions e events) (hx : e.execution? id = some x)
    (hsound : ∀ c, x.phase = .running c → c.Sound)
    (hmoves : Moves e now (.chain id at_ move) after seen) :
    ∃ y, after.execution? id = some y ∧
      Pointed first (actions ++ [.move now (.chain id at_ move)]) id y := by
  obtain ⟨x', c, next, shown, hx', hphase, made, hafter⟩ := hmoves.states_chain
  obtain rfl := Option.some.inj (hx.symm.trans hx')
  rw [Pointed, hphase] at h
  obtain ⟨hnodup, hexact⟩ := h
  exact ⟨_, hafter, nodup_tracked hnodup shown,
    pointsTo_of_move hrun hx hphase (hsound c hphase) made hexact⟩

theorem Pointed.happens {x : Execution} {after : Engine} {a : Action} {seen : List Event}
    (h : Pointed first actions id x) (hx : e.execution? id = some x)
    (ha : ∀ now at_ move, a ≠ .move now (.chain id at_ move)) (happens : Happens e a after seen) :
    ∃ y, after.execution? id = some y ∧ Pointed first (actions ++ [a]) id y := by
  obtain ⟨y, hy, hchanges | ⟨now, at_, move, _, _, _, heq, -⟩⟩ := happens.becomes hx
  · refine ⟨y, hy, (pointed_concat_iff ha).2 ?_⟩
    exact hchanges.rec h fun _ hone hpointed => hpointed.change hone
  · exact absurd heq (ha now at_ move)

/-- The pointers of every execution are known at any point of a run, and nothing has been entered
for what has not been started. -/
theorem Run.pointed (hread : AllRead actions) (hfirst : first.execution? id = none)
    (hrun : Run first actions e events) :
    (e.execution? id = none → ∀ address state, ¬LastEntered first id address actions state) ∧
      ∀ x, e.execution? id = some x → Pointed first actions id x := by
  induction hrun with
  | rest =>
    refine ⟨fun _ _ _ => not_lastEntered_nil, fun x hx => ?_⟩
    rw [hfirst] at hx
    cases hx
  | @next actions a d after events more before happens ih =>
    have hearlier : AllRead actions := fun now id m input limit passed hmem =>
      hread now id m input limit passed (List.mem_append_left [a] hmem)
    obtain ⟨hnever, hpointed⟩ := ih hearlier
    cases hx : d.execution? id with
    | some x =>
      have hstep : ∃ y, after.execution? id = some y ∧ Pointed first (actions ++ [a]) id y := by
        by_cases hchain : ∃ now at_ move, a = .move now (.chain id at_ move)
        · obtain ⟨now, at_, move, rfl⟩ := hchain
          obtain ⟨-, told⟩ := before.told hfirst
          have hsound (c : Chain) (hphase : x.phase = .running c) : c.Sound :=
            Chain.sound_course (sound_start hearlier (told.started x hx))
              ((told.story x hx).runs hphase)
          cases happens with
          | moved honest done =>
            exact (hpointed x hx).move_chain before hx hsound (moves_of_step done)
        · have ha : ∀ now at_ move, a ≠ .move now (.chain id at_ move) :=
            fun now at_ move heq => hchain ⟨now, at_, move, heq⟩
          exact (hpointed x hx).happens hx ha happens
      obtain ⟨y, hy, hafter⟩ := hstep
      refine ⟨fun hnone => ?_, fun z hz => ?_⟩
      · cases hy.symm.trans hnone
      · obtain rfl := Option.some.inj (hy.symm.trans hz)
        exact hafter
    | none =>
      have ha : ∀ now at_ move, a ≠ .move now (.chain id at_ move) := by
        rintro now at_ move rfl
        cases happens with
        | moved honest done =>
          obtain ⟨x, c, next, shown, hx', -⟩ := (moves_of_step done).states_chain
          cases hx.symm.trans hx'
      have hstill (address : List Nat) (state : String) :
          ¬LastEntered first id address (actions ++ [a]) state :=
        fun h => hnever hx address state ((lastEntered_concat_iff ha).1 h)
      refine ⟨fun _ => hstill, fun y hy => ?_⟩
      obtain ⟨m, input, limit, doc, now, deadline, passed, rfl, -, rfl⟩ := happens.starts hx hy
      exact ⟨rfl, hstill⟩

/-- In every run of machines that have been read, whatever their states are called and however
branches are nested: no two chains of an execution have the same name and no branch has the name
of the main chain, and the pointers of the execution are exactly one for each chain that is active
and has entered a state, to the state that it has entered last. There are none once the execution
has its outcome. -/
theorem Run.pointers_tell_active {registry : Registry} {archive : Option Archive} {retention : Nat}
    (hread : AllRead actions) (hrun : Run (make registry archive retention) actions e events)
    {x : Execution} (hx : e.execution? id = some x) :
    (∀ c address other name d d', x.phase = .running c → Reaches "" c address name d →
      Reaches "" c other name d' → address = other) ∧
    (∀ c address name d, x.phase = .running c → Reaches "" c address name d → address ≠ [] →
      name ≠ "") ∧
    (Members.keys x.states).Nodup ∧
    (∀ name state, x.states.lookup name = some state ↔ ∃ c, x.phase = .running c ∧
      PointsTo (make registry archive retention) actions id c name state) ∧
    (∀ o, x.outcome? = some o → x.states = []) := by
  have hfresh : (make registry archive retention).execution? id = none := rfl
  have hpointed := (hrun.pointed hread hfresh).2 x hx
  have hstates : (Members.keys x.states).Nodup ∧ ∀ name state,
      x.states.lookup name = some state ↔ ∃ c, x.phase = .running c ∧
        PointsTo (make registry archive retention) actions id c name state := by
    by_cases hruns : ∃ c, x.phase = .running c
    · obtain ⟨c, hphase⟩ := hruns
      rw [Pointed, hphase] at hpointed
      obtain ⟨hnodup, hexact⟩ := hpointed
      refine ⟨hnodup, fun name state => (hexact name state).trans ⟨fun h => ⟨c, hphase, h⟩, ?_⟩⟩
      rintro ⟨c', hphase', h⟩
      obtain rfl := Phase.running.inj (hphase.symm.trans hphase')
      exact h
    · rw [hpointed.nothing fun c hphase => hruns ⟨c, hphase⟩]
      refine ⟨List.nodup_nil, fun name state => ⟨fun hlookup => ?_, ?_⟩⟩
      · cases hlookup
      · rintro ⟨c, hphase, -⟩
        exact absurd ⟨c, hphase⟩ hruns
  refine ⟨?_, ?_, hstates.1, hstates.2, fun o ho => (hrun.settled hfresh hx ho).states⟩
  · exact fun c address other name d d' _ h h' => h.address_unique h'
  · intro c address name d _ h hbranch
    cases address with
    | nil => exact absurd rfl hbranch
    | cons => exact h.name_ne

/-- The first state forks twice over, and the name of the second one is such that its branch is
called as the inner branch was. The state of that branch has an empty name. -/
def mazeText : Value :=
  .obj [("StartAt", .str "A"), ("States", .obj [
    ("A", .obj [("Type", .str "Parallel"), ("Next", .str "A[0]/B"), ("Branches", .arr [
      .obj [("StartAt", .str "B"), ("States", .obj [("B", .obj [("Type", .str "Parallel"),
        ("Branches", .arr [.obj [("StartAt", .str "C"), ("States", .obj [("C",
          .obj [("Type", .str "Succeed")])])]])])])]])]),
    ("A[0]/B", .obj [("Type", .str "Parallel"), ("Branches", .arr [
      .obj [("StartAt", .str ""), ("States", .obj [("", .obj [("Type", .str "Wait"),
        ("Seconds", .int 5)])])],
      .obj [("StartAt", .str "D"), ("States", .obj [("D", .obj [("Type", .str "Succeed")])])]])])])]

def maze : Machine := (Machine.ofJson mazeText).toOption.get (by decide +kernel)

theorem read_maze : ∃ v, Machine.ofJson v = .ok maze := ⟨mazeText, eq_ok_get _⟩

/-- The inner branch has come to its end and been left, and then so has the second branch of the
other fork, while the first one waits. -/
def threading : Option (List Action × Engine × List Event) :=
  performNew ⟨0⟩ "m" maze (.dict []) (.int 60)
    [.move (.begin "m"), .move (.chain "m" [] .enter), .move (.chain "m" [0] .begin),
      .move (.chain "m" [0] .enter), .move (.chain "m" [0, 0] .begin),
      .move (.chain "m" [0, 0] .enter), .move (.chain "m" [0] .join), .move (.chain "m" [] .join),
      .move (.chain "m" [] .enter), .move (.chain "m" [1] .begin), .move (.chain "m" [0] .begin),
      .move (.chain "m" [0] .enter), .move (.chain "m" [1] .enter)]
    (make ⟨[]⟩ none 0)

theorem pointers_tell_active_threading :
    ∃ actions e events x c address d, threading = some (actions, e, events) ∧ AllRead actions ∧
      Run (make ⟨[]⟩ none 0) actions e events ∧ e.execution? "m" = some x ∧
      x.states = [("", "A[0]/B"), ("A[0]/B[0]", "")] ∧ x.phase = .running c ∧
      Reaches "" c address "A[0]/B[0]" d ∧ d.result? = none ∧
      LastEntered (make ⟨[]⟩ none 0) "m" address actions "" := by
  have hstates : threading.any (fun run => (run.2.1.execution? "m").any fun x =>
      x.states = [("", "A[0]/B"), ("A[0]/B[0]", "")]) = true := by decide +kernel
  obtain ⟨⟨actions, e, events⟩, hsome, hany⟩ := (Option.any_eq_true _ _).1 hstates
  obtain ⟨x, hx, hpointers⟩ := (Option.any_eq_true _ _).1 hany
  have hpointers : x.states = [("", "A[0]/B"), ("A[0]/B[0]", "")] := of_decide_eq_true hpointers
  have hread := allRead_of_performNew read_maze hsome
  have hrun := Run.of_performNew rfl hsome
  obtain ⟨-, -, -, hexact, -⟩ := hrun.pointers_tell_active hread hx
  have hlookup : x.states.lookup "A[0]/B[0]" = some "" := by
    rw [hpointers]
    rfl
  obtain ⟨c, hphase, address, d, hreaches, hactive, hentered⟩ := (hexact _ _).1 hlookup
  refine ⟨actions, e, events, x, c, address, d, hsome, hread, hrun, hx, hpointers, hphase,
    hreaches, hactive.resolve_left ?_, hentered⟩
  rintro rfl
  exact absurd (hreaches.unique (.here "" c)).1 (by decide)

end Engine

end ReminderFlow
