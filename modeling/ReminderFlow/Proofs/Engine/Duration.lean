import ReminderFlow.Proofs.Datum
import ReminderFlow.Proofs.Document
import ReminderFlow.Proofs.Engine.Deadline
import ReminderFlow.Proofs.Machine.Duration

namespace ReminderFlow

namespace Chain

/-- The chain at an address has failed, or one around it has on account of it, with a failure of
some kind. -/
inductive Lost (kind : Failure → Prop) : Chain → List Nat → Prop
  | failed {f : Failure} {address : List Nat} (failure : kind f) :
      Lost kind (ended (.error f)) address
  | branch {stop : Stop} {branches : List Chain} {i : Nat} {child : Chain} {rest : List Nat}
      (chosen : branches[i]? = some child) (inner : Lost kind child rest) :
      Lost kind (forked stop branches) (i :: rest)

variable {knows : String → Bool} {kind : Failure → Prop} {branch name : String} {c next : Chain}
  {address : List Nat}

theorem Reaches.lost {f : Failure} (h : Reaches branch c address name (ended (.error f)))
    (hf : kind f) : Lost kind c address := by
  generalize hd : ended (.error f) = d at h
  induction h with
  | here =>
    subst hd
    exact .failed hf
  | down chosen further ih => exact .branch chosen (ih hd)

theorem Lost.of_ended {r : Except Failure Document} (h : Lost kind (ended r) address) :
    ∃ f, r = .error f ∧ kind f := by
  cases h with
  | failed failure => exact ⟨_, rfl, failure⟩

/-- Where a branch has failed, a join gives the failure of one of the branches. -/
theorem Joins.of_failed {stop : Stop} {results : List (Except Failure Document)}
    (h : Joins stop results next) {i : Nat} {f : Failure} (hf : results[i]? = some (.error f)) :
    ∃ (k : Nat) (g : Failure), results[k]? = some (.error g) ∧ next = ended (.error g) := by
  cases h with
  | @failed k g here first => exact ⟨k, g, here, rfl⟩
  | @together docs all =>
    subst all
    rw [List.getElem?_map, Option.map_eq_some_iff] at hf
    obtain ⟨doc, -, hdoc⟩ := hf
    cases hdoc

/-- A chain that is lost stays so. What else has failed only matters to the kind of failure. -/
theorem Lost.stepAt (h : Lost kind c address)
    (others : ∀ other name f, Reaches branch c other name (ended (.error f)) → ¬other <+: address →
      kind f)
    {at_ : List Nat} {move : Move} {shown : List Event}
    (made : stepAt knows move at_ branch c = some (next, shown)) : Lost kind next address := by
  induction h generalizing branch at_ next with
  | failed failure => cases at_ <;> cases move <;> cases made
  | @branch stop branches i child rest chosen inner ih =>
    cases at_ with
    | nil =>
      obtain ⟨-, results, rfl, joins, -⟩ := join_of_step made
      rw [List.getElem?_map, Option.map_eq_some_iff] at chosen
      obtain ⟨r, hr, rfl⟩ := chosen
      obtain ⟨f, rfl, hf⟩ := inner.of_ended
      -- A join gives the first failure in the order of the branches, which may be of another branch.
      obtain ⟨k, g, hk, rfl⟩ := joins.of_failed hr
      by_cases hki : k = i
      · subst hki
        obtain rfl := Except.error.inj (Option.some.inj (hk.symm.trans hr))
        exact .failed hf
      · refine .failed (others [k] _ g (.down ?_ (.here _ _)) ?_)
        · rw [List.getElem?_map, hk]
          rfl
        · rw [List.cons_prefix_cons]
          exact fun hprefix => hki hprefix.1
    | cons j below =>
      obtain ⟨other, after, hother, hafter, rfl⟩ := stepAt_cons_iff.1 made
      by_cases hji : j = i
      · subst hji
        obtain rfl := Option.some.inj (chosen.symm.trans hother)
        refine .branch (List.getElem?_set_self (List.getElem?_eq_some_iff.1 chosen).1) (ih ?_ hafter)
        intro further name f hreaches hfurther
        refine others (j :: further) name f (.down chosen hreaches) ?_
        rw [List.cons_prefix_cons]
        exact fun hprefix => hfurther hprefix.2
      · refine .branch ?_ inner
        rw [List.getElem?_set_ne hji]
        exact chosen

/-- Neither a chain that is lost nor one around it or below it enters a state. -/
theorem Lost.stepAt_enter (h : Lost kind c address) {other : List Nat}
    (hother : other <+: address ∨ address <+: other) :
    Chain.stepAt knows .enter other branch c = none := by
  induction h generalizing branch other with
  | failed failure => cases other <;> rfl
  | @branch stop branches i child rest chosen inner ih =>
    cases other with
    | nil => rfl
    | cons j below =>
      simp only [List.cons_prefix_cons] at hother
      obtain rfl : j = i := hother.elim And.left fun hprefix => hprefix.1.symm
      have hbelow : Chain.stepAt knows .enter below (branchName branch stop.state j) child = none :=
        ih (hother.imp And.right And.right)
      simp only [Chain.stepAt, Option.bind_eq_bind, chosen, Option.bind_some, hbelow,
        Option.bind_none]

end Chain

namespace Engine

/-- The chains of an execution, those around an address apart, have failed in no other way. -/
def OnlyFails (e : Engine) (id : String) (address : List Nat) (kind : Failure → Prop) : Prop :=
  ∀ other name f, e.Stands id other name (.ended (.error f)) → ¬other <+: address → kind f

/-- An execution that is lost at an address runs on as such, or has failed for that, or some action
has cut it off. -/
inductive Doomed (id : String) (address : List Nat) (kind : Failure → Prop) (actions : List Action)
    (y : Execution) : Prop
  | running {c : Chain} (phase : y.phase = .running c) (lost : c.Lost kind address)
  | failed {f : Failure} {o : Outcome} (outcome : y.outcome? = some o)
      (told : Outcome.ofResult? y.deadline (.error f) = some o) (failure : kind f)
  | cut {o : Outcome} {a : Action} (outcome : y.outcome? = some o)
      (unsuccessful : o.status ≠ .succeeded) (here : a ∈ actions) (cuts : a.Cuts id)

theorem unsuccessful_of_ofResult? {deadline : Instant} {f : Failure} {o : Outcome}
    (told : Outcome.ofResult? deadline (.error f) = some o) : o.status ≠ .succeeded := by
  cases f with
  | crash k =>
    change Outcome.ofFault? deadline k.fault = some o at told
    unfold Outcome.ofFault? at told
    split at told
    · cases told
      exact Status.noConfusion
    · cases told
      exact Status.noConfusion
    · obtain ⟨cause, -, rfl⟩ := Option.map_eq_some_iff.1 told
      exact Status.noConfusion
  | _ =>
    cases told
    exact Status.noConfusion

section Doomed

variable {id : String} {address : List Nat} {kind : Failure → Prop}

/-- What one action makes of an execution that is lost. -/
theorem Happens.doomed {e after : Engine} {a : Action} {more : List Event} {x : Execution} {c : Chain}
    (h : Happens e a after more) (hx : e.execution? id = some x) (hphase : x.phase = .running c)
    (hlost : c.Lost kind address) (honly : e.OnlyFails id address kind) :
    ∃ y, after.execution? id = some y ∧ Doomed id address kind [a] y := by
  obtain ⟨y, hy, hchanges | ⟨now, at_, move, d, next, seen, -, hd, made, states, rfl⟩⟩ :=
    h.becomes hx
  · refine ⟨y, hy, ?_⟩
    cases ho : y.outcome? with
    | none => exact .running (phase_of_changes hchanges hphase ho) hlost
    | some o =>
      cases h.ends hx (Execution.outcome?_eq_none_of_running hphase) hy ho with
      | settled phase told =>
        obtain rfl := Phase.running.inj (hphase.symm.trans phase)
        obtain ⟨f, rfl, hf⟩ := hlost.of_ended
        rw [← deadline_of_changes hchanges] at told
        exact .failed ho told hf
      | expired phase unended suspended outcome =>
        refine .cut ho ?_ List.mem_cons_self rfl
        rw [outcome]
        exact Status.noConfusion
      | cancelled phase unended suspended outcome =>
        refine .cut ho ?_ List.mem_cons_self rfl
        rw [outcome]
        exact Status.noConfusion
  · obtain rfl := Phase.running.inj (hphase.symm.trans hd)
    refine ⟨_, hy, .running rfl (hlost.stepAt (fun other name f hreaches => ?_) made)⟩
    exact honly other name f ⟨x, c, hx, hphase, hreaches⟩

theorem Happens.deadline {e after : Engine} {a : Action} {more : List Event} {x y : Execution}
    (h : Happens e a after more) (hx : e.execution? id = some x)
    (hy : after.execution? id = some y) : y.deadline = x.deadline := by
  obtain ⟨z, hz, hcases⟩ := h.becomes hx
  obtain rfl := Option.some.inj (hy.symm.trans hz)
  obtain hchanges | ⟨-, -, -, -, -, -, -, -, -, states, rfl⟩ := hcases
  · exact deadline_of_changes hchanges
  · rfl

theorem Run.doomed {e after : Engine} {actions : List Action} {more : List Event} {x : Execution}
    {c : Chain} (hrun : Run e actions after more) (hx : e.execution? id = some x)
    (hphase : x.phase = .running c) (hlost : c.Lost kind address)
    (honly : ∀ before d seen, before <+: actions → Run e before d seen →
      d.OnlyFails id address kind) :
    ∃ y, after.execution? id = some y ∧ Doomed id address kind actions y := by
  induction hrun with
  | rest => exact ⟨x, hx, .running hphase hlost⟩
  | @next actions a d after events more before happens ih =>
    have hprefix : actions <+: actions ++ [a] := List.prefix_append actions [a]
    obtain ⟨z, hz, hdoomed⟩ := ih fun earlier f seen hearlier =>
      honly earlier f seen (hearlier.trans hprefix)
    cases hdoomed with
    | running phase lost =>
      obtain ⟨y, hy, hstep⟩ := happens.doomed hz phase lost (honly actions d events hprefix before)
      refine ⟨y, hy, ?_⟩
      cases hstep with
      | running phase lost => exact .running phase lost
      | failed outcome told failure => exact .failed outcome told failure
      | cut outcome unsuccessful here cuts =>
        exact .cut outcome unsuccessful (List.mem_append_right actions here) cuts
    | failed outcome told failure =>
      obtain ⟨y, hy, ho, -⟩ := happens.outcome hz outcome
      rw [← happens.deadline hz hy] at told
      exact ⟨y, hy, .failed ho told failure⟩
    | cut outcome unsuccessful here cuts =>
      obtain ⟨y, hy, ho, -⟩ := happens.outcome hz outcome
      exact ⟨y, hy, .cut ho unsuccessful (List.mem_append_left [a] here) cuts⟩

end Doomed

/-- The chain at an address has failed. In no run from there does it or a chain around it enter a
state, or the execution succeed; unless it is cut off, or other chains fail in other ways, it fails
with that failure. With its main chain it has failed whatever else is going on, and that can be
settled at once. -/
structure FailsBy (e : Engine) (id : String) (address : List Nat) (name : String) (f : Failure) :
    Prop where
  stands : e.Stands id address name (.ended (.error f))
  stops : ∀ further after more, Run e further after more →
    (∀ now other, other <+: address ∨ address <+: other →
      after.step now (.chain id other .enter) = none) ∧
    ∀ y o, after.execution? id = some y → y.outcome? = some o → o.status ≠ .succeeded
  outcome : ∀ further after more, Run e further after more → (∀ a ∈ further, ¬a.Cuts id) →
    (∀ before d seen, before <+: further → Run e before d seen → d.OnlyFails id address (· = f)) →
    ∀ y o, after.execution? id = some y → y.outcome? = some o →
      Outcome.ofResult? y.deadline (.error f) = some o
  main : address = [] → ∀ further after more, Run e further after more →
    ∃ y, after.execution? id = some y ∧ ∀ o, Outcome.ofResult? y.deadline (.error f) = some o →
      y.outcome? = some o ∨ y.outcome? = none ∧ ∀ now, ∃ last shown z,
        after.step now (.settle id) = some (last, shown) ∧ last.execution? id = some z ∧
          z.outcome? = some o

theorem exists_step_settle {e : Engine} {id : String} {x : Execution} {r : Except Failure Document}
    {o : Outcome} (hx : e.execution? id = some x) (hphase : x.phase = .running (.ended r))
    (told : Outcome.ofResult? x.deadline r = some o) (now : Instant) :
    ∃ after shown y, e.step now (.settle id) = some (after, shown) ∧
      after.execution? id = some y ∧ y.outcome? = some o := by
  have hstep : e.step now (.settle id) = some (e.settle now id x o [] (crash? r)) := by
    simp [step, hx, hphase, told]
  have hput := execution?_settle e now id x o [] (crash? r) id
  rw [execution?_put_self] at hput
  exact ⟨_, _, _, hstep, hput, rfl⟩

theorem Stands.failsBy {e : Engine} {id name : String} {address : List Nat} {f : Failure}
    (h : e.Stands id address name (.ended (.error f))) : e.FailsBy id address name f := by
  have hstands := h
  obtain ⟨x, c, hx, hphase, hreaches⟩ := h
  refine ⟨hstands, fun further after more hrun => ?_,
    fun further after more hrun huncut honly y o hy ho => ?_, ?_⟩
  · have hlost : c.Lost (fun _ => True) address := hreaches.lost trivial
    obtain ⟨y, hy, hdoomed⟩ := hrun.doomed hx hphase hlost fun _ _ _ _ _ _ _ _ _ _ => trivial
    refine ⟨fun now other hother => ?_, fun z o hz ho => ?_⟩
    · cases hdoomed with
      | running phase lost =>
        have hmay := step_chain hy phase now other .enter
        rw [lost.stepAt_enter hother] at hmay
        exact Option.not_isSome_iff_eq_none.1 (by simp [hmay])
      | failed outcome => exact step_chain_of_outcome hy outcome now other .enter
      | cut outcome => exact step_chain_of_outcome hy outcome now other .enter
    · obtain rfl := Option.some.inj (hz.symm.trans hy)
      cases hdoomed with
      | running phase lost =>
        rw [Execution.outcome?_eq_none_of_running phase] at ho
        cases ho
      | failed outcome told =>
        obtain rfl := Option.some.inj (ho.symm.trans outcome)
        exact unsuccessful_of_ofResult? told
      | cut outcome unsuccessful =>
        obtain rfl := Option.some.inj (ho.symm.trans outcome)
        exact unsuccessful
  · have hlost : c.Lost (· = f) address := hreaches.lost rfl
    obtain ⟨z, hz, hdoomed⟩ := hrun.doomed hx hphase hlost honly
    obtain rfl := Option.some.inj (hy.symm.trans hz)
    cases hdoomed with
    | running phase lost =>
      rw [Execution.outcome?_eq_none_of_running phase] at ho
      cases ho
    | failed outcome told failure =>
      subst failure
      rwa [← Option.some.inj (ho.symm.trans outcome)] at told
    | cut outcome unsuccessful here cuts => exact absurd cuts (huncut _ here)
  · rintro rfl further after more hrun
    obtain rfl : c = .ended (.error f) := Option.some.inj hreaches.at?
    obtain ⟨y, hy, hdeadline, hcases⟩ := hrun.outcome_of_ended hx hphase
    refine ⟨y, hy, fun o told => ?_⟩
    obtain hrunning | ⟨-, hsettled⟩ := hcases
    · exact .inr ⟨Execution.outcome?_eq_none_of_running hrunning,
        exists_step_settle hy hrunning told⟩
    · rw [hdeadline] at told
      exact .inl (hsettled.trans told)

/-- What a chain becomes that enters a wait whose path leads to a value. -/
theorem Stands.enter_wait {e : Engine} {id name state : String} {address : List Nat} {m : Machine}
    {doc : Document} {path next given : Value} (h : e.Stands id address name (.ready m state doc))
    (hstate : m.state? state = some (.wait path .null next))
    (hget : doc.get (Datum.ofValue path) = .ok given) (now : Instant) :
    ∃ after shown d, e.step now (.chain id address .enter) = some (after, shown) ∧
      chainEvents id shown = .entered name state "Wait" :: Chain.ending name d ∧
      after.Stands id address name d ∧ d = match given.duration? with
        | .ok seconds => .waiting ⟨m, state, next, doc⟩ seconds
        | .error .invalid => .ended (.error (.showing .duration given))
        | .error .tooLarge => .ended (.error (.crash .numberTooLarge)) := by
  let d := Chain.enterState e.registry.contains m state doc (.wait path .null next)
  have hmove : Chain.move? e.registry.contains name .enter (.ready m state doc) =
      some (d, [.entered name state "Wait"]) := by
    simp only [Chain.move?, hstate]
    rfl
  have hstep : Chain.step e.registry.contains name .enter (.ready m state doc) =
      some (d, .entered name state "Wait" :: Chain.ending name d) := by
    simp only [Chain.step, hmove, Option.map_some, Chain.ending]
    split <;> rfl
  obtain ⟨after, shown, hmade, hstands, hshown⟩ := h.step hstep now
  refine ⟨after, shown, d, hmade, hshown, hstands, ?_⟩
  simp only [d, Chain.enterState, Chain.waitTime_of_get hget]
  rcases given.duration? with (_ | _) | seconds <;> rfl

theorem Stands.unique {e : Engine} {id name other : String} {address : List Nat} {c d : Chain}
    (h : e.Stands id address name c) (h' : e.Stands id address other d) : c = d := by
  obtain ⟨x, tree, hx, hphase, hreaches⟩ := h
  obtain ⟨y, tree', hy, hphase', hreaches'⟩ := h'
  obtain rfl := Option.some.inj (hx.symm.trans hy)
  obtain rfl := Phase.running.inj (hphase.symm.trans hphase')
  exact Option.some.inj (hreaches.at?.symm.trans hreaches'.at?)

/-- The value of a wait's path puts the chain to sleep if and only if a definition with the same
value as a fixed duration is accepted. Every other value is reported as no duration, both in the
definition and by the execution, but for whole numbers beyond the doubles, and for values that an
execution cannot show since a whole number of too many digits is in them. -/
theorem Stands.sleeps_iff_accepted {v : Value} {accepted : Machine} {wait : String}
    {place : List Token} (hread : Machine.ofJson v = .ok accepted)
    (hplace : Machine.WaitAt wait place v)
    {e : Engine} {id name state : String} {address : List Nat} {m : Machine} {doc : Document}
    {path next given : Value} (h : e.Stands id address name (.ready m state doc))
    (hstate : m.state? state = some (.wait path .null next))
    (hget : doc.get (Datum.ofValue path) = .ok given) (now : Instant) :
    ∃ w after shown, Value.setAt given (place ++ [.name "Seconds"]) v = some w ∧
      e.step now (.chain id address .enter) = some (after, shown) ∧
      (∀ event ∈ chainEvents id shown, event = .entered name state "Wait" ∨ ∃ b, event = .left b) ∧
      ((∃ made, Machine.ofJson w = .ok made) ↔
        ∃ seconds, after.Stands id address name (.waiting ⟨m, state, next, doc⟩ seconds)) ∧
      ((∃ made, Machine.ofJson w = .ok made) ↔
        (∃ q, given.number?.bind Number.toRat? = some q ∧ 0 ≤ q) ∧ ¬given.IsBeyondDoubles) ∧
      (¬given.IsDuration → ¬given.IsBeyondDoubles →
        Machine.ofJson w = .error (State.durationError wait given) ∧
        (State.durationError wait given).code? = some "States.DefinitionInvalid" ∧
        (∀ shown, given.describe = .ok shown → after.FailsBy id address name (.duration shown) ∧
          (Failure.duration shown).report? = some (.str "States.InvalidDuration",
            .str s!"Wait duration must be a non-negative number, got {shown}")) ∧
        (given.HoldsLong → after.FailsBy id address name (.crash (.outside .tooManyDigits)))) ∧
      (given.IsBeyondDoubles → Machine.ofJson w = .error .numberTooLarge ∧
        after.FailsBy id address name (.crash .numberTooLarge)) := by
  obtain ⟨w, changed, hw, hchecked⟩ := Machine.ofJson_setSeconds hplace hread given
  obtain ⟨after, shown, d, hstep, hshown, hstands, hd⟩ := h.enter_wait hstate hget now
  rw [State.checkWait_fixed] at hchecked
  have haccepted : (∃ made, Machine.ofJson w = .ok made) ↔ given.IsDuration := by
    rw [hchecked, ← Value.duration?_eq_ok_iff]
    rcases given.duration? with (_ | _) | seconds <;> simp [Except.map]
  have hsleeps : given.IsDuration ↔
      ∃ seconds, after.Stands id address name (.waiting ⟨m, state, next, doc⟩ seconds) := by
    rw [← Value.duration?_eq_ok_iff]
    constructor
    · rintro ⟨seconds, hseconds⟩
      rw [hseconds] at hd
      subst hd
      exact ⟨seconds, hstands⟩
    · rintro ⟨seconds, hwaiting⟩
      rw [hstands.unique hwaiting] at hd
      rcases hgiven : given.duration? with (_ | _) | t <;> rw [hgiven] at hd <;> cases hd
      exact ⟨seconds, rfl⟩
  refine ⟨w, after, shown, hw, hstep, fun event hevent => ?_, haccepted.trans hsleeps,
    haccepted.trans Value.isDuration_iff, fun hnot hbounded => ?_, fun hbeyond => ?_⟩
  · rw [hshown, List.mem_cons] at hevent
    refine hevent.imp_right fun hending => ?_
    unfold Chain.ending at hending
    split_ifs at hending
    · exact left_of_leaving name event hending
    · cases hending
  · have hinvalid := Value.duration?_invalid_iff.2 ⟨hnot, hbounded⟩
    rw [hinvalid] at hchecked hd
    subst hd
    refine ⟨hchecked, State.code?_durationError wait given, fun shown htold => ?_, fun hlong => ?_⟩
    · rw [Failure.showing, htold] at hstands
      exact ⟨hstands.failsBy, rfl⟩
    · rw [Failure.showing, Value.describe_eq_error_iff.2 ⟨rfl, hlong⟩] at hstands
      exact hstands.failsBy
  · have htooLarge := Value.duration?_tooLarge_iff.2 hbeyond
    rw [htooLarge] at hchecked hd
    subst hd
    exact ⟨hchecked, hstands.failsBy⟩

/-- A definition with a wait in a branch. -/
def pausing : Value :=
  .obj [("StartAt", .str "Fork"), ("States", .obj [("Fork", .obj [("Type", .str "Parallel"),
    ("Branches", .arr [.obj [("StartAt", .str "Pause"), ("States", .obj [("Pause",
      .obj [("Type", .str "Wait"), ("Seconds", .int 3)])])]])])])]

def pausePath : List Token :=
  [.name "States", .name "Fork", .name "Branches", .index 0, .name "States", .name "Pause"]

theorem waitAt_pausing : Machine.WaitAt "Pause" pausePath pausing :=
  .branch rfl rfl rfl rfl rfl (.here rfl rfl rfl rfl)

theorem ofJson_pausing : ∃ m, Machine.ofJson pausing = .ok m := by
  have hsome : (Machine.ofJson pausing).toOption.isSome = true := by decide +kernel
  exact ⟨_, eq_ok_get hsome⟩

def delay : Machine :=
  .mk "Delay" [("Delay", .wait (.str "$.delay") .null (.str "Done")), ("Done", .succeed)] ""

/-- An execution that is about to wait for so many seconds. -/
def delaying (seconds : Int) : Option Engine :=
  (performNew ⟨0⟩ "d" delay (.dict [(.str "delay", .int seconds)]) (.int 60)
    [.move (.begin "d")] (make ⟨[]⟩ none 0)).map (·.2.1)

def delayed (seconds : Int) : Document := ⟨.obj [("delay", .int seconds)]⟩

theorem stands_delaying (seconds : Int) : ∃ e, delaying seconds = some e ∧
    e.Stands "d" [] "" (.ready delay "Delay" (delayed seconds)) :=
  ⟨_, rfl, _, _, rfl, rfl, .here _ _⟩

theorem get_delayed (seconds : Int) :
    (delayed seconds).get (Datum.ofValue (.str "$.delay")) = .ok (.int seconds) := by
  have hread : (Path.parse "$.delay").toOption = some [.name "delay"] := by decide +kernel
  have hparse : Path.parse "$.delay" = .ok [.name "delay"] := eq_ok_of_toOption hread
  rw [Datum.ofValue, Document.get_eq hparse]
  rfl

theorem sleeps_iff_accepted_negative :
    ∃ w e after shown, Value.setAt (.int (-5)) (pausePath ++ [.name "Seconds"]) pausing = some w ∧
      Machine.ofJson w = .error (.waitDuration "Pause") ∧ delaying (-5) = some e ∧
      e.step ⟨1⟩ (.chain "d" [] .enter) = some (after, shown) ∧
      after.FailsBy "d" [] "" (.duration "-5") := by
  obtain ⟨m, hm⟩ := ofJson_pausing
  obtain ⟨e, he, hstands⟩ := stands_delaying (-5)
  have hnot : ¬(Value.int (-5)).IsDuration := fun h => absurd h.2 (by decide)
  have hfits : fitsDouble (-5) = true := by decide +kernel
  have hbounded : ¬(Value.int (-5)).IsBeyondDoubles := by
    intro h
    rw [Value.IsBeyondDoubles, hfits] at h
    cases h
  obtain ⟨w, after, shown, hw, hstep, -, -, -, hrefused, -⟩ :=
    hstands.sleeps_iff_accepted hm waitAt_pausing rfl (get_delayed (-5)) ⟨1⟩
  obtain ⟨hread, -, hfails, -⟩ := hrefused hnot hbounded
  have hshown : (Value.int (-5)).describe = .ok "-5" := by
    have hsome : (Value.int (-5)).describe.toOption = some "-5" := by decide +kernel
    exact eq_ok_of_toOption hsome
  exact ⟨w, e, after, shown, hw, hread, he, hstep, (hfails "-5" hshown).1⟩

/-- Not every negative whole number is reported as what it is, neither in a definition nor by an
execution. -/
theorem not_always_in_own_terms :
    (¬∀ n : Int, n < 0 → ∀ w,
      Value.setAt (.int n) (pausePath ++ [.name "Seconds"]) pausing = some w →
      ∃ fault, Machine.ofJson w = .error fault ∧ fault.code? = some "States.DefinitionInvalid") ∧
    ¬∀ n : Int, n < 0 → ∀ e after shown f, delaying n = some e →
      e.step ⟨1⟩ (.chain "d" [] .enter) = some (after, shown) →
      after.Stands "d" [] "" (.ended (.error f)) →
        ∃ cause, f.report? = some (.str "States.InvalidDuration", cause) := by
  have hnegative : (-(10 ^ 400) : Int) < 0 := by decide +kernel
  have hfits : fitsDouble (-(10 ^ 400)) = false := by decide +kernel
  have hduration : (Value.int (-(10 ^ 400))).duration? = .error .tooLarge :=
    Value.duration?_tooLarge_iff.2 hfits
  constructor
  · intro h
    obtain ⟨m, hm⟩ := ofJson_pausing
    obtain ⟨w, changed, hw, hread⟩ :=
      Machine.ofJson_setSeconds waitAt_pausing hm (.int (-(10 ^ 400)))
    rw [State.checkWait_fixed, hduration] at hread
    obtain ⟨fault, hfault, hcode⟩ := h _ hnegative w hw
    rw [hread] at hfault
    cases hfault
    cases hcode
  · intro h
    obtain ⟨e, he, hstands⟩ := stands_delaying (-(10 ^ 400))
    obtain ⟨after, shown, d, hstep, -, hended, hd⟩ :=
      hstands.enter_wait rfl (get_delayed (-(10 ^ 400))) ⟨1⟩
    rw [hduration] at hd
    subst hd
    obtain ⟨cause, hreport⟩ := h _ hnegative e after shown _ he hstep hended
    cases hreport

end Engine

end ReminderFlow
