import ReminderFlow.Proofs.Run.Branch
import ReminderFlow.Proofs.Run.Contents
import ReminderFlow.Proofs.Run.Course
import ReminderFlow.Proofs.Run.Rest

namespace ReminderFlow.Chain

/-- What the events tell of a chain and of the branches below it. -/
def under (branch : String) (events : List Event) : List Event :=
  events.filter fun e => branch.toList <+: e.branch.toList

theorem under_append (branch : String) (before after : List Event) :
    under branch (before ++ after) = under branch before ++ under branch after := by
  simp [under]

theorem under_of_within {branch : String} {events : List Event} (h : Within branch events) :
    under branch events = events := by
  rw [under, List.filter_eq_self]
  intro e he
  exact decide_eq_true (h e he)

/-- Events of one branch are not to be seen below another branch of the same fork. -/
theorem under_eq_nil_of_within {parent state : String} {i j : Nat} (hij : i ≠ j) {branch : String}
    {events : List Event} (hb : (branchName parent state i).toList <+: branch.toList)
    (h : Within (branchName parent state j) events) : under branch events = [] := by
  rw [under, List.filter_eq_nil_iff]
  intro e he hbelow
  have hbranch : branch.toList <+: e.branch.toList := of_decide_eq_true hbelow
  exact hij (place_unique (hb.trans hbranch) (h e he))

theorem under_under {outer inner : String} (h : outer.toList <+: inner.toList)
    (events : List Event) : under inner (under outer events) = under inner events := by
  rw [under, under, under, List.filter_filter]
  apply List.filter_congr
  intro e he
  rw [Bool.and_eq_left_iff_imp]
  intro hinner
  exact decide_eq_true (h.trans (of_decide_eq_true hinner))

variable {knows : String → Bool} {replies : Replies}

theorem stepAt_cons_iff {move : Move} {i : Nat} {rest : List Nat} {branch : String}
    {stop : Stop} {branches : List Chain} {next : Chain} {events : List Event} :
    stepAt knows move (i :: rest) branch (forked stop branches) = some (next, events) ↔
      ∃ child after, branches[i]? = some child ∧
        stepAt knows move rest (branchName branch stop.state i) child = some (after, events) ∧
        next = forked stop (branches.set i after) := by
  simp only [stepAt, Option.bind_eq_bind, Option.bind_eq_some_iff]
  constructor
  · rintro ⟨child, hchild, ⟨after, seen⟩, hafter, hnext⟩
    cases hnext
    exact ⟨child, after, hchild, hafter, rfl⟩
  · rintro ⟨child, after, hchild, hafter, rfl⟩
    exact ⟨child, hchild, (after, events), hafter, rfl⟩

/-- The chain at an address, with its name. -/
inductive Reaches : String → Chain → List Nat → String → Chain → Prop
  | here (branch : String) (c : Chain) : Reaches branch c [] branch c
  | down {branch name : String} {stop : Stop} {branches : List Chain} {i : Nat} {child d : Chain}
      {rest : List Nat} (chosen : branches[i]? = some child)
      (further : Reaches (branchName branch stop.state i) child rest name d) :
      Reaches branch (forked stop branches) (i :: rest) name d

theorem Reaches.at? {branch name : String} {c d : Chain} {address : List Nat}
    (h : Reaches branch c address name d) : c.at? address = some d := by
  induction h with
  | here => rfl
  | down chosen further ih =>
    rw [Chain.at?, chosen]
    exact ih

theorem Reaches.name_extends {branch name : String} {c d : Chain} {address : List Nat}
    (h : Reaches branch c address name d) : branch.toList <+: name.toList := by
  induction h with
  | here branch c => exact List.prefix_refl _
  | down chosen further ih => exact (prefix_branchName _ _ _).trans ih

/-- A chain below which another one stands has not ended before that one has. -/
theorem Reaches.result?_eq_none {branch name : String} {c d : Chain} {address : List Nat}
    (h : Reaches branch c address name d) (hd : d.result? = none) : c.result? = none := by
  cases h with
  | here => exact hd
  | down => rfl

/-- A move at or below an address is a move of the chain that stands there. -/
theorem Reaches.stepAt {branch name : String} {c d next : Chain} {address rest : List Nat}
    {move : Move} {events : List Event} (h : Reaches branch c address name d)
    (made : stepAt knows move (address ++ rest) branch c = some (next, events)) :
    ∃ after, Chain.stepAt knows move rest name d = some (after, events) ∧
      Reaches branch next address name after := by
  induction h generalizing next with
  | here branch c => exact ⟨next, made, .here branch next⟩
  | @down branch name stop branches i child d address chosen further ih =>
    obtain ⟨child', moved, hchild', hmoved, rfl⟩ := stepAt_cons_iff.1 made
    obtain rfl := Option.some.inj (chosen.symm.trans hchild')
    obtain ⟨after, hafter, hreaches⟩ := ih hmoved
    refine ⟨after, hafter, .down ?_ hreaches⟩
    exact List.getElem?_set_self (List.getElem?_eq_some_iff.1 chosen).1

theorem Reaches.exists_stepAt {branch name : String} {c d after : Chain} {address rest : List Nat}
    {move : Move} {events : List Event} (h : Reaches branch c address name d)
    (made : Chain.stepAt knows move rest name d = some (after, events)) :
    ∃ next, Chain.stepAt knows move (address ++ rest) branch c = some (next, events) := by
  induction h with
  | here branch c => exact ⟨after, made⟩
  | down chosen further ih =>
    obtain ⟨next, hnext⟩ := ih made
    exact ⟨_, stepAt_cons_iff.2 ⟨_, next, chosen, hnext, rfl⟩⟩

/-- A move elsewhere leaves a chain that has not ended as it is and shows nothing of it. -/
theorem Reaches.stepAt_elsewhere {branch name : String} {c d next : Chain}
    {address other : List Nat} {move : Move} {events : List Event}
    (h : Reaches branch c address name d) (hd : d.result? = none) (hother : ¬address <+: other)
    (made : Chain.stepAt knows move other branch c = some (next, events)) :
    Reaches branch next address name d ∧ under name events = [] := by
  induction h generalizing other next with
  | here branch c => exact absurd List.nil_prefix hother
  | @down branch name stop branches i child d address chosen further ih =>
    cases other with
    | nil =>
      -- The fork above would be joined, but this branch of it has not ended.
      obtain ⟨⟨moved, seen⟩, hmove, -⟩ := Option.map_eq_some_iff.1 made
      cases move with
      | join =>
        obtain ⟨results, hresults, -⟩ := Option.map_eq_some_iff.1 hmove
        exact absurd (further.result?_eq_none hd)
          (result?_ne_none_of_results hresults (List.mem_of_getElem? chosen))
      | _ => cases hmove
    | cons j others =>
      obtain ⟨child', moved, hchild', hmoved, rfl⟩ := stepAt_cons_iff.1 made
      by_cases hij : j = i
      · subst hij
        obtain rfl := Option.some.inj (chosen.symm.trans hchild')
        have hrest : ¬address <+: others := fun hp => hother (List.cons_prefix_cons.2 ⟨rfl, hp⟩)
        obtain ⟨hreaches, hnothing⟩ := ih hd hrest hmoved
        refine ⟨.down ?_ hreaches, hnothing⟩
        exact List.getElem?_set_self (List.getElem?_eq_some_iff.1 chosen).1
      · refine ⟨.down ?_ further, ?_⟩
        · rw [List.getElem?_set_ne hij]
          exact chosen
        · exact under_eq_nil_of_within (Ne.symm hij) further.name_extends (within_stepAt hmoved)

/-- What the end of a chain shows, if it has ended. -/
def ending (branch : String) (c : Chain) : List Event :=
  if c.result?.isSome then leaving branch else []

theorem move?_of_step {move : Move} {c next : Chain} {shown : List Event}
    (h : step knows branch move c = some (next, shown)) :
    ∃ seen, move? knows branch move c = some (next, seen) ∧ shown = seen ++ ending branch next := by
  obtain ⟨⟨after, seen⟩, hmove, heq⟩ := Option.map_eq_some_iff.1 h
  cases heq
  refine ⟨seen, hmove, ?_⟩
  unfold ending
  split_ifs
  · rfl
  · rw [List.append_nil]

theorem results_eq_some_iff {branches : List Chain} {results : List (Except Failure Document)} :
    branches.mapM result? = some results ↔ branches = results.map ended := by
  induction branches generalizing results with
  | nil =>
    rw [List.mapM_nil]
    constructor
    · intro h
      cases h
      rfl
    · intro h
      rw [List.map_eq_nil_iff.1 h.symm]
      rfl
  | cons c rest ih =>
    simp only [List.mapM_cons, Option.bind_eq_bind, Option.pure_def, Option.bind_eq_some_iff]
    constructor
    · rintro ⟨r, hr, more, hmore, heq⟩
      obtain rfl := Option.some.inj heq
      cases c with
      | ended r' =>
        cases hr
        rw [List.map_cons, ih.1 hmore]
      | _ => cases hr
    · intro h
      cases results with
      | nil => cases h
      | cons r more =>
        obtain ⟨rfl, hrest⟩ := List.cons.inj h
        exact ⟨r, rfl, more, ih.2 hrest, rfl⟩

theorem exists_results {branches : List Chain} (h : ∀ c ∈ branches, c.result? ≠ none) :
    ∃ results : List (Except Failure Document), branches = results.map ended := by
  induction branches with
  | nil => exact ⟨[], rfl⟩
  | cons c rest ih =>
    rw [List.forall_mem_cons] at h
    obtain ⟨results, rfl⟩ := ih h.2
    cases c with
    | ended r => exact ⟨r :: results, rfl⟩
    | _ => exact absurd rfl h.1

/-- What becomes of a fork by the results of its branches: it goes on with the list of their
documents in the order of the branches, or fails as the first branch in that order that has
failed. -/
inductive Joins (stop : Stop) (results : List (Except Failure Document)) : Chain → Prop where
  | together {docs : List Document} (all : results = docs.map .ok) :
      Joins stop results (follow stop.machine stop.next ⟨.arr (docs.map Document.value)⟩)
  | failed {i : Nat} {f : Failure} (here : results[i]? = some (.error f))
      (first : ∀ j < i, ∃ doc, results[j]? = some (.ok doc)) :
      Joins stop results (ended (.error f))

/-- All results are documents, or one of them is the first failure. -/
theorem mapM_results (results : List (Except Failure Document)) :
    (∃ docs, results = docs.map .ok ∧ results.mapM id = .ok docs) ∨
      ∃ (i : Nat) (f : Failure), results[i]? = some (.error f) ∧
        (∀ j < i, ∃ doc, results[j]? = some (.ok doc)) ∧ results.mapM id = .error f := by
  induction results with
  | nil => exact .inl ⟨[], rfl, rfl⟩
  | cons r rest ih =>
    cases r with
    | error f =>
      refine .inr ⟨0, f, rfl, fun j hj => ?_, rfl⟩
      exact absurd hj (Nat.not_lt_zero j)
    | ok doc =>
      rw [List.mapM_cons]
      obtain ⟨docs, hrest, hmap⟩ | ⟨i, f, hi, hfirst, hmap⟩ := ih
      · refine .inl ⟨doc :: docs, by rw [hrest, List.map_cons], ?_⟩
        rw [hmap]
        rfl
      · refine .inr ⟨i + 1, f, hi, fun j hj => ?_, ?_⟩
        · cases j with
          | zero => exact ⟨doc, rfl⟩
          | succ j => exact hfirst j (Nat.lt_of_succ_lt_succ hj)
        · rw [hmap]
          rfl

theorem joins_of_joined (stop : Stop) (results : List (Except Failure Document)) :
    Joins stop results (match joined results with
      | .ok doc => follow stop.machine stop.next doc
      | .error f => fail f) := by
  obtain ⟨docs, hall, hmap⟩ | ⟨i, f, hi, hfirst, hmap⟩ := mapM_results results
  · rw [joined, hmap]
    exact .together hall
  · rw [joined, hmap]
    exact .failed hi hfirst

/-- A fork itself only moves by a join, when all of its branches have ended. -/
theorem join_of_step {branch : String} {move : Move} {stop : Stop} {branches : List Chain}
    {next : Chain} {events : List Event}
    (h : step knows branch move (forked stop branches) = some (next, events)) :
    move = .join ∧ ∃ results, branches = results.map ended ∧ Joins stop results next ∧
      events = ending branch next := by
  obtain ⟨seen, hmove, rfl⟩ := move?_of_step h
  cases move with
  | join =>
    obtain ⟨results, hresults, hjoin⟩ := Option.map_eq_some_iff.1 hmove
    refine ⟨rfl, results, results_eq_some_iff.1 hresults, ?_⟩
    have hjoins := joins_of_joined stop results
    split at hjoin
    · rename_i doc hdoc
      rw [hdoc] at hjoins
      obtain ⟨rfl, rfl⟩ := Prod.mk.inj hjoin
      exact ⟨hjoins, rfl⟩
    · rename_i f hf
      rw [hf] at hjoins
      obtain ⟨rfl, rfl⟩ := Prod.mk.inj hjoin
      exact ⟨hjoins, rfl⟩
  | _ => cases hmove

theorem exists_step_join (knows : String → Bool) (branch : String) (stop : Stop)
    (results : List (Except Failure Document)) : ∃ next events,
      step knows branch .join (forked stop (results.map ended)) = some (next, events) := by
  have hresults := results_eq_some_iff.2 (rfl : results.map ended = results.map ended)
  simp only [step, move?, hresults, Option.map_some]
  cases joined results <;> exact ⟨_, _, rfl⟩

/-- A chain that has not ended can go on by itself, or a call that it has made is still without its
reply. -/
theorem goes_on (knows : String → Bool) (branch : String) : (c : Chain) → c.result? = none →
    (∃ address move next events, (∀ r, move ≠ .reply r) ∧
      stepAt knows move address branch c = some (next, events)) ∨
    ∃ address stop call, c.at? address = some (working stop call true)
  | created m doc, _ => .inl ⟨[], .begin, _, _, fun _ => Move.noConfusion, rfl⟩
  | ready m name doc, _ => by
    obtain ⟨next, events, hstep, -⟩ := step_enter knows branch m name doc
    exact .inl ⟨[], .enter, next, events, fun _ => Move.noConfusion, hstep⟩
  | waiting stop seconds, _ => .inl ⟨[], .wake, _, _, fun _ => Move.noConfusion, rfl⟩
  | working stop call false, _ => .inl ⟨[], .call, _, _, fun _ => Move.noConfusion, rfl⟩
  | working stop call true, _ => .inr ⟨[], stop, call, rfl⟩
  | forked stop branches, _ => by
    by_cases hall : ∀ c ∈ branches, c.result? ≠ none
    · obtain ⟨results, hresults⟩ := exists_results hall
      obtain ⟨next, events, hstep⟩ := exists_step_join knows branch stop results
      rw [← hresults] at hstep
      exact .inl ⟨[], .join, next, events, fun _ => Move.noConfusion, hstep⟩
    · push Not at hall
      obtain ⟨c, hmem, hc⟩ := hall
      obtain ⟨i, hi⟩ := List.getElem?_of_mem hmem
      obtain ⟨address, move, next, events, hmove, hmade⟩ | ⟨address, stop', call, hat⟩ :=
        goes_on knows (branchName branch stop.state i) c hc
      · exact .inl ⟨i :: address, move, _, events, hmove, stepAt_cons_iff.2 ⟨c, next, hi, hmade, rfl⟩⟩
      · refine .inr ⟨i :: address, stop', call, ?_⟩
        rw [at?, hi]
        exact hat
  | ended r, h => by cases h
termination_by c => sizeOf c
decreasing_by
  have := List.sizeOf_lt_of_mem hmem
  simp
  omega

/-- Each branch of a fork has come from where it was by a course of its own, of which is to be
seen what is told below its name. -/
structure Apart (knows : String → Bool) (replies : Replies) (branch state : String)
    (first : List Chain) (events : List Event) (last : List Chain) : Prop where
  length : last.length = first.length
  each : ∀ i c d, first[i]? = some c → last[i]? = some d →
    Course knows replies (branchName branch state i) c (under (branchName branch state i) events) d

theorem apart_refl (branch state : String) (branches : List Chain) :
    Apart knows replies branch state branches [] branches := by
  refine ⟨rfl, fun i c d hc hd => ?_⟩
  obtain rfl := Option.some.inj (hc.symm.trans hd)
  exact .rest c

/-- What is not below the fork changes nothing of it. -/
theorem Apart.elsewhere {branch state : String} {first last : List Chain} {events more : List Event}
    (h : Apart knows replies branch state first events last) (hmore : under branch more = []) :
    Apart knows replies branch state first (events ++ more) last := by
  refine ⟨h.length, fun i c d hc hd => ?_⟩
  have hbelow : under (branchName branch state i) more = [] := by
    rw [← under_under (prefix_branchName branch state i), hmore]
    rfl
  rw [under_append, hbelow, List.append_nil]
  exact h.each i c d hc hd

theorem Apart.move {branch state : String} {first last : List Chain} {events more : List Event}
    {k : Nat} {child after : Chain} {address : List Nat} {move : Move}
    (h : Apart knows replies branch state first events last) (hchild : last[k]? = some child)
    (honest : Honest replies address child move)
    (made : stepAt knows move address (branchName branch state k) child = some (after, more)) :
    Apart knows replies branch state first (events ++ more) (last.set k after) := by
  refine ⟨by rw [List.length_set, h.length], fun i c d hc hd => ?_⟩
  have hwithin := within_stepAt made
  rw [under_append]
  by_cases hik : i = k
  · subst hik
    rw [List.getElem?_set_self (List.getElem?_eq_some_iff.1 hchild).1] at hd
    obtain rfl := Option.some.inj hd
    rw [under_of_within hwithin]
    exact (h.each i c child hc hchild).concat honest made
  · rw [List.getElem?_set_ne (Ne.symm hik)] at hd
    rw [under_eq_nil_of_within hik (List.prefix_refl _) hwithin, List.append_nil]
    exact h.each i c d hc hd

theorem Honest.child {stop : Stop} {branches : List Chain} {i : Nat} {child : Chain}
    {address : List Nat} {move : Move} (h : Honest replies (i :: address) (forked stop branches) move)
    (hchild : branches[i]? = some child) : Honest replies address child move := by
  cases move with
  | reply r =>
    intro stop' call started hat
    apply h stop' call started
    rw [Chain.at?, hchild]
    exact hat
  | _ => trivial

theorem Honest.reached {branch name : String} {c d : Chain} {address rest : List Nat} {move : Move}
    (h : Honest replies (address ++ rest) c move) (hd : Reaches branch c address name d) :
    Honest replies rest d move := by
  induction hd with
  | here => exact h
  | down chosen further ih => exact ih (Honest.child h chosen)

end ReminderFlow.Chain
