import ReminderFlow.Proofs.Run.Fork

namespace ReminderFlow.Chain

/-- Of what is to be seen of a chain, the states that it enters and the calls that it makes. -/
def deeds (branch : String) (events : List Event) : List Event :=
  events.filter fun
    | .entered name _ _ => name = branch
    | .called name _ _ => name = branch
    | _ => false

theorem deeds_append (branch : String) (before after : List Event) :
    deeds branch (before ++ after) = deeds branch before ++ deeds branch after :=
  List.filter_append before after

theorem deeds_leaving (branch name : String) : deeds branch (leaving name) = [] := by
  unfold leaving
  split_ifs <;> rfl

/-- A branch has a longer name than the chain that forked. -/
theorem not_extends_branchName (parent state : String) (i : Nat) :
    ¬(branchName parent state i).toList <+: parent.toList := by
  intro h
  have hlength := h.length_le
  have hbracket : "]".toList.length = 1 := rfl
  unfold branchName at hlength
  split_ifs at hlength with hparent
  · rw [hparent] at hlength
    simp only [String.toList_append, List.length_append] at hlength
    omega
  · simp only [String.toList_append, List.length_append] at hlength
    omega

theorem deeds_of_inner {parent state : String} {i : Nat} {events : List Event}
    (h : Within (branchName parent state i) events) : deeds parent events = [] := by
  rw [deeds, List.filter_eq_nil_iff]
  intro e he hdeed
  have hname : e.branch = parent := by
    cases e with
    | entered | called => exact of_decide_eq_true hdeed
    | _ => cases hdeed
  exact not_extends_branchName parent state i (hname ▸ h e he)

theorem under_of_own {parent state : String} {i : Nat} {events : List Event}
    (h : ∀ e ∈ events, e.branch = parent) : under (branchName parent state i) events = [] := by
  rw [under, List.filter_eq_nil_iff]
  intro e he hunder
  have hextends := of_decide_eq_true hunder
  rw [h e he] at hextends
  exact not_extends_branchName parent state i hextends

/-- The visit of a state: the document that the chain had there, the call that it has made, the
branches that it has forked into, and what has been to be seen since it entered. -/
structure Visit where
  name : String
  state : State
  document : Document
  call : Option Call
  branches : List Chain
  seen : List Event

namespace Visit

def calling (branch : String) (v : Visit) : List Event :=
  v.call.toList.map fun c => .called branch c.executor c.input

def acts (branch : String) (v : Visit) : List Event :=
  .entered branch v.name v.state.type :: v.calling branch

/-- The visit of a task has made its one call, and no other visit makes any. -/
def Calls (knows : String → Bool) (v : Visit) : Prop :=
  match v.state with
  | .task resource inputPath outputPath _ => ∃ id input, resource = .str id ∧ knows id = true ∧
      v.document.get (Datum.ofValue inputPath) = .ok input ∧ v.call = some ⟨id, input, outputPath⟩
  | _ => v.call = none

/-- The visit of a task cannot make its call: its executor is unknown or its input is not there. -/
def Barred (knows : String → Bool) (v : Visit) : Prop :=
  v.call = none ∧ ∃ id inputPath outputPath next,
    v.state = .task (.str id) inputPath outputPath next ∧
    (knows id = false ∨
      ∃ path, v.document.get (Datum.ofValue inputPath) = .error (.notFound path))

def Hands (replies : Replies) (v : Visit) (doc : Document) : Prop :=
  match v.state with
  | .task _ _ outputPath _ => ∃ call output, v.call = some call ∧
      replies call.executor call.input (.ok output) ∧
      v.document.set (Datum.ofValue outputPath) output = .ok doc
  | .parallel .. => ∃ docs : List Document, v.branches = docs.map (fun d => ended (.ok d)) ∧
      doc = ⟨.arr (docs.map Document.value)⟩
  | _ => doc = v.document

/-- The branches of a parallel state, each on its own course since the state was entered. -/
def Forks (knows : String → Bool) (replies : Replies) (branch : String) (v : Visit)
    (machines : List Machine) : Prop :=
  Apart knows replies branch v.name (machines.map fun b => created b v.document) v.seen v.branches

/-- Where a chain stands in the visit, or where it has gone on to. -/
inductive At (knows : String → Bool) (replies : Replies) (branch : String) (m : Machine)
    (v : Visit) : Chain → Prop
  | entered (plain : ∀ machines strays next, v.state ≠ .parallel machines strays next)
      (made : v.call = none) :
      v.At knows replies branch m (enterState knows m v.name v.document v.state)
  | woken {secondsPath seconds next : Value} (state : v.state = .wait secondsPath seconds next)
      (made : v.call = none) : v.At knows replies branch m (follow m next v.document)
  | called {resource inputPath outputPath next : Value} {call : Call}
      (state : v.state = .task resource inputPath outputPath next)
      (allowed : taskCall knows resource inputPath outputPath v.document = .ok call)
      (made : v.call = some call) :
      v.At knows replies branch m (working ⟨m, v.name, next, v.document⟩ call true)
  | replied {resource inputPath outputPath next : Value} {call : Call}
      {reply : Except Fault Datum} (state : v.state = .task resource inputPath outputPath next)
      (allowed : taskCall knows resource inputPath outputPath v.document = .ok call)
      (made : v.call = some call) (given : replies call.executor call.input reply) :
      v.At knows replies branch m (take ⟨m, v.name, next, v.document⟩ call reply)
  | forked {machines : List Machine} {strays : List Value} {next : Value}
      (state : v.state = .parallel machines strays next) (made : v.call = none)
      (forks : v.Forks knows replies branch machines) :
      v.At knows replies branch m (.forked ⟨m, v.name, next, v.document⟩ v.branches)
  | joined {machines : List Machine} {strays : List Value} {next : Value}
      {results : List (Except Failure Document)} {c : Chain}
      (state : v.state = .parallel machines strays next) (made : v.call = none)
      (forks : v.Forks knows replies branch machines) (all : v.branches = results.map ended)
      (joins : Joins ⟨m, v.name, next, v.document⟩ results c) : v.At knows replies branch m c

end Visit

variable {knows : String → Bool} {replies : Replies} {branch : String}

/-- The chain has gone on to the next state or has ended. -/
def Gone (c : Chain) : Prop := c.isReady = true ∨ c.result? ≠ none

theorem gone_jump (m : Machine) (target : Value) (doc : Document) : (jump m target doc).Gone := by
  unfold jump
  split
  · exact .inl rfl
  · exact .inr (Option.some_ne_none _)

theorem gone_follow (m : Machine) (next : Value) (doc : Document) : (follow m next doc).Gone := by
  unfold follow
  split_ifs
  · exact .inr (Option.some_ne_none _)
  · exact gone_jump m next doc

theorem gone_take (stop : Stop) (call : Call) (reply : Except Fault Datum) :
    (take stop call reply).Gone := by
  unfold take
  split
  · exact .inr (Option.some_ne_none _)
  · split
    · exact gone_follow _ _ _
    · exact .inr (Option.some_ne_none _)

theorem Joins.gone {stop : Stop} {results : List (Except Failure Document)} {c : Chain}
    (h : Joins stop results c) : c.Gone := by
  cases h with
  | together all => exact gone_follow _ _ _
  | failed => exact .inr (Option.some_ne_none _)

theorem stepAt_ended (move : Move) (address : List Nat) (r : Except Failure Document) :
    stepAt knows move address branch (ended r) = none := by
  cases address with
  | nil => cases move <;> rfl
  | cons => rfl

theorem Gone.not_moves {c next : Chain} {move : Move} {address : List Nat} {shown : List Event}
    (h : c.Gone) (hready : c.isReady = false)
    (made : stepAt knows move address branch c = some (next, shown)) : False := by
  cases c with
  | ended r =>
    rw [stepAt_ended] at made
    cases made
  | ready =>  cases hready
  | _ => rcases h with h | h <;> simp [isReady, result?] at h

theorem deeds_ending (name : String) (c : Chain) : deeds branch (ending name c) = [] := by
  unfold ending
  split_ifs
  · exact deeds_leaving branch name
  · rfl

theorem branch_of_mem_ending {c : Chain} : ∀ e ∈ ending branch c, e.branch = branch := by
  intro e he
  unfold ending leaving at he
  split_ifs at he
  · cases he
  · rw [List.mem_singleton.1 he]
    rfl
  · cases he

theorem Apart.own {state : String} {first last : List Chain} {events more : List Event}
    (h : Apart knows replies branch state first events last)
    (hmore : ∀ e ∈ more, e.branch = branch) :
    Apart knows replies branch state first (events ++ more) last := by
  refine ⟨h.length, fun i c d hc hd => ?_⟩
  rw [under_append, under_of_own hmore, List.append_nil]
  exact h.each i c d hc hd

/-- A chain that ends leaves its branch in the end. -/
theorem ending_of_stepAt {move : Move} {address : List Nat} {c next : Chain} {shown : List Event}
    (made : stepAt knows move address branch c = some (next, shown)) :
    ending branch next <:+ shown := by
  cases address with
  | nil =>
    obtain ⟨seen, -, rfl⟩ := move?_of_step made
    exact List.suffix_append seen _
  | cons i rest =>
    cases c with
    | forked stop branches =>
      obtain ⟨child, after, -, -, rfl⟩ := stepAt_cons_iff.1 made
      exact List.nil_suffix
    | _ => cases made

/-- What has been to be seen in the visit begins with its entry, and then the chain itself has
done nothing but call. -/
def Visit.Told (branch : String) (v : Visit) : Prop :=
  ∃ rest, v.seen = .entered branch v.name v.state.type :: rest ∧
    Chain.deeds branch rest = v.calling branch

theorem Visit.Told.deeds {v : Visit} (h : v.Told branch) : deeds branch v.seen = v.acts branch := by
  obtain ⟨rest, hseen, hrest⟩ := h
  rw [hseen, acts, ← hrest]
  exact List.filter_cons_of_pos (decide_eq_true rfl)

/-- A chain that enters a state begins a visit. -/
theorem exists_visit (replies : Replies) {m : Machine} {doc : Document} {name : String}
    {s : State} {next : Chain} {shown : List Event} (hs : m.state? name = some s)
    (made : step knows branch .enter (ready m name doc) = some (next, shown)) :
    ∃ call branches, let v : Visit := ⟨name, s, doc, call, branches, shown⟩
      v.At knows replies branch m next ∧ v.Told branch := by
  obtain ⟨seen, hmove, rfl⟩ := move?_of_step made
  simp only [move?, hs] at hmove
  obtain ⟨rfl, rfl⟩ := Prod.mk.inj (Option.some.inj hmove)
  let rest := ending branch (enterState knows m name doc s)
  let shown := .entered branch name s.type :: rest
  have hdeeds : deeds branch rest = [] := deeds_ending branch _
  by_cases hparallel : ∃ machines strays next, s = .parallel machines strays next
  · obtain ⟨machines, strays, next, rfl⟩ := hparallel
    let branches := machines.map fun b => created b doc
    have hown : ∀ e ∈ shown, e.branch = branch := by
      intro e he
      rcases List.mem_cons.1 he with rfl | he
      · rfl
      · exact branch_of_mem_ending e he
    have hforks : Apart knows replies branch name branches shown branches :=
      (apart_refl branch name branches).own hown
    exact ⟨none, branches, .forked rfl rfl hforks, rest, rfl, hdeeds⟩
  · have hplain : ∀ machines strays next, s ≠ .parallel machines strays next :=
      fun machines strays next heq => hparallel ⟨machines, strays, next, heq⟩
    exact ⟨none, [], .entered hplain rfl, rest, rfl, hdeeds⟩

/-- A state that does not fork is left at once, or the chain waits in it for time or for a
worker. -/
theorem enterState_plain (knows : String → Bool) (m : Machine) (name : String) (doc : Document)
    {s : State} (plain : ∀ machines strays next, s ≠ .parallel machines strays next) :
    (enterState knows m name doc s).Gone ∨
      (∃ secondsPath seconds next t, s = .wait secondsPath seconds next ∧
        enterState knows m name doc s = waiting ⟨m, name, next, doc⟩ t) ∨
      ∃ resource inputPath outputPath next call, s = .task resource inputPath outputPath next ∧
        taskCall knows resource inputPath outputPath doc = .ok call ∧
        enterState knows m name doc s = working ⟨m, name, next, doc⟩ call false := by
  cases s with
  | succeed | fail => exact .inl (.inr (Option.some_ne_none _))
  | pass next => exact .inl (gone_follow _ _ _)
  | choice rules default =>
    left
    rw [enterState]
    split
    · exact gone_jump _ _ _
    · exact .inr (Option.some_ne_none _)
  | wait secondsPath seconds next =>
    rw [enterState]
    split
    · exact .inr (.inl ⟨_, _, _, _, rfl, rfl⟩)
    · exact .inl (.inr (Option.some_ne_none _))
  | task resource inputPath outputPath next =>
    rw [enterState]
    split
    · rename_i call hcall
      exact .inr (.inr ⟨_, _, _, _, call, rfl, hcall, rfl⟩)
    · exact .inl (.inr (Option.some_ne_none _))
  | parallel machines strays next => exact absurd rfl (plain machines strays next)

theorem moved_created {m : Machine} {doc : Document} {move : Move} {address : List Nat}
    {next : Chain} {shown : List Event}
    (made : stepAt knows move address branch (created m doc) = some (next, shown)) :
    next = ready m m.start doc ∧ shown = [] := by
  cases address with
  | cons => cases made
  | nil =>
    obtain ⟨seen, hmove, rfl⟩ := move?_of_step made
    cases move with
    | begin =>
      obtain ⟨rfl, rfl⟩ := Prod.mk.inj (Option.some.inj hmove)
      exact ⟨rfl, rfl⟩
    | _ => cases hmove

theorem moved_waiting {stop : Stop} {seconds : Number} {move : Move} {address : List Nat}
    {next : Chain} {shown : List Event}
    (made : stepAt knows move address branch (waiting stop seconds) = some (next, shown)) :
    next = follow stop.machine stop.next stop.document ∧ shown = ending branch next := by
  cases address with
  | cons => cases made
  | nil =>
    obtain ⟨seen, hmove, rfl⟩ := move?_of_step made
    cases move with
    | wake =>
      obtain ⟨rfl, rfl⟩ := Prod.mk.inj (Option.some.inj hmove)
      exact ⟨rfl, List.nil_append _⟩
    | _ => cases hmove

theorem moved_queued {stop : Stop} {call : Call} {move : Move} {address : List Nat} {next : Chain}
    {shown : List Event}
    (made : stepAt knows move address branch (working stop call false) = some (next, shown)) :
    next = working stop call true ∧ shown = [.called branch call.executor call.input] := by
  cases address with
  | cons => cases made
  | nil =>
    obtain ⟨seen, hmove, rfl⟩ := move?_of_step made
    cases move with
    | call =>
      obtain ⟨rfl, rfl⟩ := Prod.mk.inj (Option.some.inj hmove)
      exact ⟨rfl, rfl⟩
    | _ => cases hmove

theorem moved_called {stop : Stop} {call : Call} {move : Move} {address : List Nat} {next : Chain}
    {shown : List Event} (honest : Honest replies address (working stop call true) move)
    (made : stepAt knows move address branch (working stop call true) = some (next, shown)) :
    ∃ reply, next = take stop call reply ∧ replies call.executor call.input reply ∧
      deeds branch shown = [] := by
  cases address with
  | cons => cases made
  | nil =>
    obtain ⟨seen, hmove, rfl⟩ := move?_of_step made
    cases move with
    | reply r =>
      obtain ⟨rfl, rfl⟩ := Prod.mk.inj (Option.some.inj hmove)
      refine ⟨r, rfl, honest stop call true rfl, ?_⟩
      rw [deeds_append, deeds_ending, List.append_nil]
      obtain h | ⟨text, h⟩ := refusal_cases branch call.executor r <;> rw [h] <;> rfl
    | _ => cases hmove

/-- A move of a chain that is not about to enter a state goes on with the visit. -/
theorem Visit.At.move {m : Machine} {v : Visit} {c next : Chain} {move : Move} {address : List Nat}
    {shown : List Event} (h : v.At knows replies branch m c) (hready : c.isReady = false)
    (told : v.Told branch) (honest : Honest replies address c move)
    (made : stepAt knows move address branch c = some (next, shown)) :
    ∃ call branches, let w : Visit := { v with call, branches, seen := v.seen ++ shown }
      w.At knows replies branch m next ∧ w.Told branch := by
  obtain ⟨rest, hseen, hrest⟩ := told
  have htold {call : Option Call} (branches : List Chain)
      (hcall : v.calling branch ++ Chain.deeds branch shown =
        call.toList.map fun c => .called branch c.executor c.input) :
      Told branch { v with call, branches, seen := v.seen ++ shown } := by
    refine ⟨rest ++ shown, by rw [hseen]; rfl, ?_⟩
    rw [deeds_append, hrest]
    exact hcall
  have hquiet (branches : List Chain) (hshown : Chain.deeds branch shown = []) :
      Told branch { v with branches, seen := v.seen ++ shown } := by
    apply htold
    rw [hshown, List.append_nil]
    rfl
  -- A chain that has gone on can only enter the next state, so that three of the cases cannot be.
  cases h with
  | entered plain made' =>
    obtain hgone | ⟨secondsPath, seconds, after, t, hstate, heq⟩ |
      ⟨resource, inputPath, outputPath, after, call, hstate, hcall, heq⟩ :=
      enterState_plain knows m v.name v.document plain
    · exact (hgone.not_moves hready made).elim
    · rw [heq] at made
      obtain ⟨rfl, rfl⟩ := moved_waiting made
      exact ⟨v.call, v.branches, .woken hstate made', hquiet _ (deeds_ending _ _)⟩
    · rw [heq] at made
      obtain ⟨rfl, rfl⟩ := moved_queued made
      refine ⟨some call, v.branches, .called hstate hcall rfl, htold _ ?_⟩
      rw [calling, made']
      simp [Chain.deeds]
  | woken => exact ((gone_follow _ _ _).not_moves hready made).elim
  | called state allowed made' =>
    obtain ⟨reply, rfl, hgiven, hshown⟩ := moved_called honest made
    exact ⟨_, v.branches, .replied state allowed made' hgiven, hquiet _ hshown⟩
  | replied => exact ((gone_take _ _ _).not_moves hready made).elim
  | forked state made' forks =>
    cases address with
    | nil =>
      obtain ⟨-, results, hall, hjoins, rfl⟩ := join_of_step made
      refine ⟨v.call, v.branches, .joined state made' ?_ hall hjoins, hquiet _ (deeds_ending _ _)⟩
      exact forks.own branch_of_mem_ending
    | cons i rest =>
      -- What a branch does is told under a longer name, so it is no deed of the chain that forked.
      obtain ⟨child, after, hchild, hafter, rfl⟩ := stepAt_cons_iff.1 made
      refine ⟨v.call, v.branches.set i after, .forked state made' ?_,
        hquiet _ (deeds_of_inner (within_stepAt hafter))⟩
      exact forks.move hchild (honest.child hchild) hafter
  | joined state made' forks all joins => exact (joins.gone.not_moves hready made).elim

end ReminderFlow.Chain
