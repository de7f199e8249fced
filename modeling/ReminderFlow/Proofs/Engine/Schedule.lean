import ReminderFlow.Proofs.Engine.Moves

namespace ReminderFlow.Engine

/-- One choice of a schedule: a move that brings nothing along, or the answer to a call. -/
inductive Choice where
  | move (m : Move)
  | answer (id : String) (address : List Nat)

/-- What the executor replies to the call that a chain has made. -/
def answer? (e : Engine) (id : String) (address : List Nat) : Option Move := do
  let x ← e.execution? id
  match x.phase with
  | .running c =>
    match c.at? address with
    | some (.working _ call _) =>
      (e.registry.get? call.executor).map fun executor =>
        .chain id address (.reply (executor.call 0 call.input).result)
    | _ => none
  | _ => none

def Choice.move? (e : Engine) : Choice → Option Move
  | move (.chain _ _ (.reply _)) => none
  | move m => some m
  | answer id address => e.answer? id address

/-- The actions of a schedule, the engine after them and what was to be seen. -/
def perform (now : Instant) : List Choice → Engine → Option (List Action × Engine × List Event)
  | [], e => some ([], e, [])
  | choice :: rest, e => do
    let m ← choice.move? e
    let (e, events) ← e.step now m
    let (actions, e, more) ← perform now rest e
    some (.move now m :: actions, e, events ++ more)

/-- A new execution is started and a schedule followed. -/
def performNew (now : Instant) (id : String) (m : Machine) (input limit : Datum)
    (choices : List Choice) (first : Engine) : Option (List Action × Engine × List Event) :=
  match first.start now id (some m) input limit with
  | .error _ => none
  | .ok (e, seen) => (perform now choices e).map fun (actions, e, events) =>
    (.start now id (some m) input limit false :: actions, e, seen ++ events)

theorem honest_of_answer? {e : Engine} {id : String} {address : List Nat} {m : Move}
    (h : e.answer? id address = some m) : e.Honest m := by
  obtain ⟨x, hx, h⟩ := Option.bind_eq_some_iff.1 h
  split at h
  case h_2 => simp at h
  case h_1 c hphase =>
    split at h
    case h_2 => simp at h
    case h_1 stop call started hat =>
      obtain ⟨executor, hexecutor, rfl⟩ := Option.map_eq_some_iff.1 h
      intro y d hy hd stop' call' started' hat'
      obtain rfl := Option.some.inj (hx.symm.trans hy)
      obtain rfl := Phase.running.inj (hphase.symm.trans hd)
      obtain ⟨-, rfl, -⟩ := Chain.working.inj (Option.some.inj (hat.symm.trans hat'))
      exact ⟨executor, 0, hexecutor, rfl⟩

theorem Choice.honest {e : Engine} {choice : Choice} {m : Move} (h : choice.move? e = some m) :
    e.Honest m := by
  unfold Choice.move? at h
  split at h
  case h_1 => simp at h
  case h_2 hreply =>
    obtain rfl := Option.some.inj h
    unfold Engine.Honest
    split
    · rename_i id address move
      cases move with
      | reply r => exact absurd rfl (hreply id address r)
      | _ => exact fun _ _ _ _ => trivial
    · trivial
  case h_3 => exact honest_of_answer? h

theorem Run.perform {first e after : Engine} {actions further : List Action}
    {events more : List Event} {now : Instant} {choices : List Choice}
    (hrun : Run first actions e events)
    (h : Engine.perform now choices e = some (further, after, more)) :
    Run first (actions ++ further) after (events ++ more) := by
  induction choices generalizing e actions further events more with
  | nil =>
    cases h
    simpa using hrun
  | cons choice rest ih =>
    obtain ⟨m, hm, h⟩ := Option.bind_eq_some_iff.1 h
    obtain ⟨⟨d, seen⟩, hstep, h⟩ := Option.bind_eq_some_iff.1 h
    obtain ⟨⟨others, d', last⟩, hrest, h⟩ := Option.bind_eq_some_iff.1 h
    cases h
    have hone := hrun.next (.moved (Choice.honest hm) hstep)
    have hall := ih hone hrest
    simpa using hall

theorem moves_of_perform {now : Instant} {choices : List Choice} {e after : Engine}
    {actions : List Action} {events : List Event}
    (h : perform now choices e = some (actions, after, events)) :
    ∀ a ∈ actions, ∃ m, a = .move now m := by
  induction choices generalizing e actions events with
  | nil =>
    cases h
    simp
  | cons choice rest ih =>
    obtain ⟨m, -, h⟩ := Option.bind_eq_some_iff.1 h
    obtain ⟨⟨d, seen⟩, -, h⟩ := Option.bind_eq_some_iff.1 h
    obtain ⟨⟨others, d', last⟩, hrest, h⟩ := Option.bind_eq_some_iff.1 h
    cases h
    rw [List.forall_mem_cons]
    exact ⟨⟨m, rfl⟩, ih hrest⟩

theorem Run.of_performNew {first after : Engine} {actions : List Action} {events : List Event}
    {now : Instant} {id : String} {m : Machine} {input limit : Datum} {choices : List Choice}
    (fresh : first.execution? id = none)
    (h : performNew now id m input limit choices first = some (actions, after, events)) :
    Run first actions after events := by
  unfold performNew at h
  split at h
  case h_1 => simp at h
  case h_2 e seen hstart =>
    obtain ⟨⟨further, d, more⟩, hperform, h⟩ := Option.map_eq_some_iff.1 h
    cases h
    obtain ⟨hopen, prepared, doc, deadline, hprepare, hregister⟩ := start_eq hstart
    exact (Run.rest.next (.started fresh hprepare hregister (.inr hopen))).perform hperform

/-- A new execution is started and then nothing is done but moves. -/
theorem mem_of_performNew {first after : Engine} {actions : List Action} {events : List Event}
    {now : Instant} {id : String} {m : Machine} {input limit : Datum} {choices : List Choice}
    (h : performNew now id m input limit choices first = some (actions, after, events)) {a : Action}
    (ha : a ∈ actions) : a = .start now id (some m) input limit false ∨ ∃ move, a = .move now move := by
  unfold performNew at h
  split at h
  case h_1 => simp at h
  case h_2 e seen hstart =>
    obtain ⟨⟨further, d, more⟩, hperform, h⟩ := Option.map_eq_some_iff.1 h
    cases h
    rcases List.mem_cons.1 ha with rfl | ha
    · exact .inl rfl
    · exact .inr (moves_of_perform hperform a ha)

theorem not_closed_of_performNew {first after : Engine} {actions : List Action}
    {events : List Event} {now : Instant} {id : String} {m : Machine} {input limit : Datum}
    {choices : List Choice}
    (h : performNew now id m input limit choices first = some (actions, after, events)) :
    .close ∉ actions := by
  intro hmem
  rcases mem_of_performNew h hmem with heq | ⟨move, heq⟩ <;> cases heq

end ReminderFlow.Engine
