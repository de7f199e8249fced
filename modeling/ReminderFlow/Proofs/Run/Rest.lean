import Mathlib.Data.Fintype.Card
import Mathlib.Logic.Relation
import ReminderFlow.Proofs.Machine.Validation
import ReminderFlow.Proofs.Run.Sound

namespace ReminderFlow

open Relation (ReflTransGen TransGen)

namespace Machine

/-- The state that a pass or a choice leads to. -/
def pass? (m : Machine) (doc : Document) (name : String) : Option String :=
  match m.state? name with
  | some (.pass next) => next.str?
  | some (.choice rules default) =>
    match Chain.choose doc default rules with
    | .ok target => target.str?
    | .error _ => none
  | _ => none

/-- A pass or a choice leads from one state to another. -/
def Passes (m : Machine) (doc : Document) (a b : String) : Prop := m.pass? doc a = some b

/-- Passes and choices lead from the state into a circle. -/
def Circles (m : Machine) (doc : Document) (name : String) : Prop :=
  ∃ b, ReflTransGen (m.Passes doc) name b ∧ TransGen (m.Passes doc) b b

/-- The state that so many passes and choices lead to. -/
def pass (m : Machine) (doc : Document) (name : String) : Nat → Option String
  | 0 => some name
  | n + 1 => (m.pass? doc name).bind fun b => m.pass doc b n

variable {m : Machine} {doc : Document}

theorem pass_add (m : Machine) (doc : Document) (name : String) (i k : Nat) :
    m.pass doc name (i + k) = (m.pass doc name i).bind fun b => m.pass doc b k := by
  induction i generalizing name with
  | zero => simp [pass]
  | succ i ih =>
    rw [Nat.succ_add, pass, pass]
    cases m.pass? doc name with
    | none => rfl
    | some b => exact ih b

theorem reflTransGen_of_pass {name b : String} {n : Nat} (h : m.pass doc name n = some b) :
    ReflTransGen (m.Passes doc) name b := by
  induction n generalizing name with
  | zero =>
    obtain rfl := Option.some.inj h
    exact .refl
  | succ n ih =>
    obtain ⟨c, hc, h⟩ := Option.bind_eq_some_iff.1 h
    exact .head hc (ih h)

/-- A state that leads into a circle passes on to one that does so too. -/
theorem Circles.passes {name : String} (h : m.Circles doc name) :
    ∃ b, m.Passes doc name b ∧ m.Circles doc b := by
  obtain ⟨b, hway, hround⟩ := h
  cases hway.cases_head with
  | inl heq =>
    subst heq
    obtain ⟨c, hc, hback⟩ := TransGen.head'_iff.1 hround
    exact ⟨c, hc, name, hback, hround⟩
  | inr hstep =>
    obtain ⟨c, hc, hrest⟩ := hstep
    exact ⟨c, hc, b, hrest, hround⟩

theorem Circles.pass_ne_none {name : String} (h : m.Circles doc name) (n : Nat) :
    m.pass doc name n ≠ none := by
  induction n generalizing name with
  | zero => simp [pass]
  | succ n ih =>
    obtain ⟨b, hb, hcircles⟩ := h.passes
    rw [pass, show m.pass? doc name = some b from hb]
    exact ih hcircles

theorem leads_of_passes (h : m.LocallyWellFormed) {a b : String} (hab : m.Passes doc a b) :
    m.Leads a b := by
  have hname (v : Value) : v.str? = some b → v = .str b := by
    cases v <;> simp [Value.str?]
  unfold Passes pass? at hab
  split at hab
  case h_1 next hs =>
    obtain rfl := hname next hab
    exact ⟨_, hs, by simp [State.successors, State.someUnlessNull, State.next, Value.isNull]⟩
  case h_2 rules default hs =>
    have hdefault : default ≠ .null := (h.fields _ (mem_states_of_state? hs)).2.1
    split at hab
    · rename_i target htarget
      obtain rfl := hname target hab
      exact ⟨_, hs, Chain.mem_successors hdefault htarget⟩
    · cases hab
  case h_3 => cases hab

/-- An accepted machine only passes on to states that it has. -/
theorem Accepted.mem_names_of_pass (accepted : m.Accepted) {name b : String}
    (hname : name ∈ m.names) {n : Nat} (h : m.pass doc name n = some b) : b ∈ m.names := by
  have hlocal := accepted.locallyWellFormed
  induction n generalizing name with
  | zero =>
    obtain rfl := Option.some.inj h
    exact hname
  | succ n ih =>
    obtain ⟨c, hc, h⟩ := Option.bind_eq_some_iff.1 h
    exact ih (hlocal.mem_names_of_leads (leads_of_passes hlocal hc)) h

/-- Whoever passes on as often as there are states comes to one of them twice. -/
theorem Accepted.circles_of_pass (accepted : m.Accepted) {name : String} (hname : name ∈ m.names)
    (h : m.pass doc name m.names.length ≠ none) : m.Circles doc name := by
  have hsome (i : Nat) (hi : i < m.names.length + 1) : ∃ b, m.pass doc name i = some b := by
    rw [← Option.ne_none_iff_exists']
    intro hnone
    apply h
    obtain ⟨k, hk⟩ := Nat.exists_eq_add_of_le (Nat.lt_succ_iff.1 hi)
    rw [hk, pass_add, hnone]
    rfl
  choose! visited hvisited using hsome
  have hmem : ∀ i ∈ Finset.range (m.names.length + 1), visited i ∈ m.names.toFinset := by
    intro i hi
    rw [List.mem_toFinset]
    exact accepted.mem_names_of_pass hname (hvisited i (Finset.mem_range.1 hi))
  have hcard : m.names.toFinset.card < (Finset.range (m.names.length + 1)).card := by
    rw [Finset.card_range]
    exact Nat.lt_succ_of_le (List.toFinset_card_le _)
  obtain ⟨i, hi, j, hj, hne, heq⟩ := Finset.exists_ne_map_eq_of_card_lt_of_maps_to hcard hmem
  rw [Finset.mem_range] at hi hj
  wlog hij : i < j generalizing i j
  · exact this j hj i hi hne.symm heq.symm (by omega)
  obtain ⟨k, hk⟩ := Nat.exists_eq_add_of_lt hij
  have hround : m.pass doc (visited i) (k + 1) = some (visited i) := by
    have hadd := pass_add m doc name i (k + 1)
    rw [show i + (k + 1) = j by omega, hvisited i hi, hvisited j hj, Option.bind_some, ← heq] at hadd
    exact hadd.symm
  obtain ⟨c, hc, hback⟩ := Option.bind_eq_some_iff.1 hround
  exact ⟨visited i, reflTransGen_of_pass (hvisited i hi),
    TransGen.head' hc (reflTransGen_of_pass hback)⟩

end Machine

namespace Chain

variable {knows : String → Bool} {branch : String}

/-- The chain after so many entries of a state, or where it has come to rest before. -/
def glide (knows : String → Bool) (branch : String) : Nat → Chain → Chain
  | 0, c => c
  | n + 1, c =>
    match step knows branch .enter c with
    | some (next, _) => glide knows branch n next
    | none => c

/-- A chain that is about to enter a state can do nothing else. -/
theorem enter_of_stepAt {move : Move} {address : List Nat} {m : Machine} {name : String}
    {doc : Document} {next : Chain} {events : List Event}
    (h : stepAt knows move address branch (ready m name doc) = some (next, events)) :
    address = [] ∧ move = .enter := by
  cases address with
  | cons i rest => cases h
  | nil =>
    cases move with
    | enter => exact ⟨rfl, rfl⟩
    | _ => cases h

/-- The chain is about to enter the state, or is at rest where none is given. -/
def GoesOn (m : Machine) (doc : Document) (c : Chain) : Option String → Prop
  | some b => c = ready m b doc
  | none => c.isReady = false

/-- By entering a state a chain goes on to where a pass or a choice leads. -/
theorem goesOn_enterState {m : Machine} {name : String} {s : State} (hs : m.state? name = some s)
    (doc : Document) : GoesOn m doc (enterState knows m name doc s) (m.pass? doc name) := by
  rw [Machine.pass?, hs]
  cases s with
  | pass next => cases next <;> rfl
  | choice rules default =>
    simp only [enterState]
    cases choose doc default rules with
    | error f => rfl
    | ok target => cases target <;> rfl
  | wait secondsPath seconds next =>
    rw [enterState]
    cases waitTime secondsPath seconds doc <;> rfl
  | task resource inputPath outputPath next =>
    rw [enterState]
    cases taskCall knows resource inputPath outputPath doc <;> rfl
  | _ => rfl

theorem step_enter (knows : String → Bool) (branch : String) (m : Machine) (name : String)
    (doc : Document) :
    ∃ next events, step knows branch .enter (ready m name doc) = some (next, events) ∧
      GoesOn m doc next (m.pass? doc name) := by
  have hstep {next : Chain} {events : List Event}
      (h : move? knows branch .enter (ready m name doc) = some (next, events)) :
      ∃ seen, step knows branch .enter (ready m name doc) = some (next, seen) := by
    rw [step, h]
    exact ⟨_, rfl⟩
  cases hs : m.state? name with
  | none =>
    have hmove : move? knows branch .enter (ready m name doc) =
        some (fail (.crash (.missingState (.str name))), []) := by simp [move?, hs]
    obtain ⟨seen, hseen⟩ := hstep hmove
    refine ⟨_, seen, hseen, ?_⟩
    rw [Machine.pass?, hs]
    rfl
  | some s =>
    have hmove : move? knows branch .enter (ready m name doc) =
        some (enterState knows m name doc s, [.entered branch name s.type]) := by simp [move?, hs]
    obtain ⟨seen, hseen⟩ := hstep hmove
    exact ⟨_, seen, hseen, goesOn_enterState hs doc⟩

theorem glide_of_not_isReady {c : Chain} (h : c.isReady = false) (n : Nat) :
    glide knows branch n c = c := by
  cases n with
  | zero => rfl
  | succ n => cases c <;> first | rfl | cases h

/-- A chain glides along passes and choices, and comes to rest where there is none. -/
theorem goesOn_glide (knows : String → Bool) (branch : String) (m : Machine) (doc : Document)
    (name : String) (n : Nat) :
    GoesOn m doc (glide knows branch n (ready m name doc)) (m.pass doc name n) := by
  induction n generalizing name with
  | zero => rfl
  | succ n ih =>
    obtain ⟨next, events, hstep, hnext⟩ := step_enter knows branch m name doc
    rw [Machine.pass, glide, hstep]
    cases hpass : m.pass? doc name with
    | some b =>
      rw [hpass] at hnext
      rw [show next = ready m b doc from hnext]
      exact ih b
    | none =>
      rw [hpass] at hnext
      have hrest : next.isReady = false := hnext
      simp only [glide_of_not_isReady hrest]
      exact hrest

/-- A chain that is not led into a circle comes to rest after no more entries than there are
states. -/
theorem glide_rests {m : Machine} (accepted : m.Accepted) {name : String} (hname : name ∈ m.names)
    {doc : Document} (h : ¬m.Circles doc name) :
    (glide knows branch m.names.length (ready m name doc)).isReady = false := by
  have hnone : m.pass doc name m.names.length = none := by
    by_contra hne
    exact h (accepted.circles_of_pass hname hne)
  have hglide := goesOn_glide knows branch m doc name m.names.length
  rwa [hnone] at hglide

theorem glide_of_circles {m : Machine} {doc : Document} {name : String} (h : m.Circles doc name)
    (n : Nat) : (glide knows branch n (ready m name doc)).isReady = true := by
  obtain ⟨b, hb⟩ := Option.ne_none_iff_exists'.1 (h.pass_ne_none n)
  have hglide := goesOn_glide knows branch m doc name n
  rw [hb] at hglide
  rw [show glide knows branch n (ready m name doc) = ready m b doc from hglide]
  rfl

/-- The chain at the address is about to enter a state that leads into a circle. -/
def CirclesAt (c : Chain) (address : List Nat) : Prop :=
  ∃ m name doc, c.at? address = some (ready m name doc) ∧ m.Circles doc name

theorem allSuspended_iff {branches : List Chain} :
    allSuspended branches = true ↔ ∀ c ∈ branches, c.isSuspended = true := by
  induction branches with
  | nil => simp [allSuspended]
  | cons c rest ih => simp [allSuspended, ih]

theorem IsSuspended.at? {c d : Chain} {address : List Nat} (h : c.isSuspended = true)
    (hat : c.at? address = some d) : d.isSuspended = true := by
  induction address generalizing c with
  | nil =>
    cases hat
    exact h
  | cons i rest ih =>
    cases c with
    | forked stop branches =>
      obtain ⟨child, hchild, hat⟩ := Option.bind_eq_some_iff.1 hat
      exact ih (allSuspended_iff.1 h child (List.mem_of_getElem? hchild)) hat
    | _ => cases hat

/-- As long as a chain circles, nothing that waits for the whole tree gets its turn. -/
theorem CirclesAt.not_isSuspended {c : Chain} {address : List Nat} (h : c.CirclesAt address) :
    c.isSuspended = false := by
  obtain ⟨m, name, doc, hat, -⟩ := h
  cases hc : c.isSuspended with
  | false => rfl
  | true => cases IsSuspended.at? hc hat

theorem CirclesAt.result?_eq_none {c : Chain} {address : List Nat} (h : c.CirclesAt address) :
    c.result? = none := by
  obtain ⟨m, name, doc, hat, -⟩ := h
  cases c with
  | ended r => cases address <;> cases hat
  | _ => rfl

theorem CirclesAt.step {m : Machine} {name : String} {doc : Document} {move : Move} {next : Chain}
    {events : List Event} (h : m.Circles doc name)
    (made : Chain.step knows branch move (ready m name doc) = some (next, events)) :
    next.CirclesAt [] := by
  obtain ⟨-, rfl⟩ := enter_of_stepAt (show stepAt knows move [] branch _ = _ from made)
  obtain ⟨b, hb, hcircles⟩ := h.passes
  obtain ⟨d, seen, hstep, hd⟩ := step_enter knows branch m name doc
  rw [show m.pass? doc name = some b from hb] at hd
  obtain ⟨rfl, -⟩ := Prod.mk.inj (Option.some.inj (made.symm.trans hstep))
  exact ⟨m, b, doc, congrArg some hd, hcircles⟩

/-- Chains are only joined when all of them have ended. -/
theorem result?_ne_none_of_results {branches : List Chain} {results : List (Except Failure Document)}
    (h : branches.mapM result? = some results) {c : Chain} (hc : c ∈ branches) :
    c.result? ≠ none := by
  induction branches generalizing results with
  | nil => cases hc
  | cons d rest ih =>
    simp only [List.mapM_cons, Option.bind_eq_bind, Option.bind_eq_some_iff] at h
    obtain ⟨first, hfirst, more, hmore, -⟩ := h
    rcases List.mem_cons.1 hc with rfl | hc
    · simp [hfirst]
    · exact ih hmore hc

/-- Whatever move is made in the tree, the chain that circles goes on to do so. -/
theorem CirclesAt.stepAt {c next : Chain} {address other : List Nat} {move : Move}
    {events : List Event} (h : c.CirclesAt address)
    (made : Chain.stepAt knows move other branch c = some (next, events)) :
    next.CirclesAt address := by
  induction address generalizing c next other branch events with
  | nil =>
    obtain ⟨m, name, doc, hat, hcircles⟩ := h
    cases hat
    obtain ⟨rfl, -⟩ := enter_of_stepAt made
    exact CirclesAt.step hcircles made
  | cons i rest ih =>
    obtain ⟨m, name, doc, hat, hcircles⟩ := h
    cases c with
    | forked stop branches =>
      obtain ⟨child, hchild, hat⟩ := Option.bind_eq_some_iff.1 hat
      have hround : child.CirclesAt rest := ⟨m, name, doc, hat, hcircles⟩
      cases other with
      | nil =>
        obtain ⟨⟨after, seen⟩, hmove, -⟩ := Option.map_eq_some_iff.1 made
        cases move with
        | join =>
          obtain ⟨results, hresults, -⟩ := Option.map_eq_some_iff.1 hmove
          exact absurd hround.result?_eq_none
            (result?_ne_none_of_results hresults (List.mem_of_getElem? hchild))
        | _ => cases hmove
      | cons j others =>
        simp only [Chain.stepAt, Option.bind_eq_bind, Option.bind_eq_some_iff] at made
        obtain ⟨moved, hmoved, ⟨after, seen⟩, hafter, hnext⟩ := made
        cases hnext
        by_cases hij : j = i
        · subst hij
          obtain rfl := Option.some.inj (hchild.symm.trans hmoved)
          obtain ⟨m', name', doc', hat', hcircles'⟩ := ih hround hafter
          refine ⟨m', name', doc', ?_, hcircles'⟩
          have hlen := (List.getElem?_eq_some_iff.1 hchild).1
          rw [at?, List.getElem?_set_self hlen]
          exact hat'
        · refine ⟨m, name, doc, ?_, hcircles⟩
          rw [at?, List.getElem?_set_ne hij, hchild]
          exact hat
    | _ => cases hat

end Chain

end ReminderFlow
