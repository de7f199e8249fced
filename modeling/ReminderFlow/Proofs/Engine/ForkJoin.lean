import ReminderFlow.Proofs.Engine.Goes
import ReminderFlow.Proofs.Engine.Schedule

namespace ReminderFlow.Engine

open Chain (Apart Joins)

/-- A fork and its branches, as they stand in a running execution: each branch is on a course of
its own, can make every move that it could make alone, and unless it has ended there is one to
make or a reply to wait for; the chain that forked can make no move but the join, and that one
when all branches have ended. -/
structure Standing (e : Engine) (id : String) (address : List Nat) (name : String) (stop : Stop)
    (first : List Chain) (seen : List Chain.Event) (branches : List Chain) : Prop where
  stands : e.Stands id address name (.forked stop branches)
  apart : Apart e.registry.contains e.registry.MayReply name stop.state first seen branches
  free : ∀ i c rest now move, branches[i]? = some c →
    (e.step now (.chain id (address ++ i :: rest) move)).isSome =
      (c.stepAt e.registry.contains move rest (Chain.branchName name stop.state i)).isSome
  unfinished : ∀ i c, branches[i]? = some c → c.result? = none →
    (∃ rest move, (∀ r, move ≠ .reply r) ∧
      ∀ now, (e.step now (.chain id (address ++ i :: rest) move)).isSome = true) ∨
    ∃ rest at_ call, c.at? rest = some (.working at_ call true)
  holds : ∀ now move, (e.step now (.chain id address move)).isSome = true ↔
    move = .join ∧ ∀ c ∈ branches, c.result? ≠ none

theorem standing_of_stands {e : Engine} {id name : String} {address : List Nat} {stop : Stop}
    {first branches : List Chain} {seen : List Chain.Event}
    (h : e.Stands id address name (.forked stop branches))
    (apart : Apart e.registry.contains e.registry.MayReply name stop.state first seen branches) :
    Standing e id address name stop first seen branches := by
  have hfree : ∀ i c rest now move, branches[i]? = some c →
      (e.step now (.chain id (address ++ i :: rest) move)).isSome =
        (c.stepAt e.registry.contains move rest (Chain.branchName name stop.state i)).isSome := by
    intro i c rest now move hc
    rw [h.isSome_step _ now move, Bool.eq_iff_iff, Option.isSome_iff_exists, Option.isSome_iff_exists]
    constructor
    · rintro ⟨⟨next, events⟩, hnext⟩
      obtain ⟨child, after, hchild, hafter, -⟩ := Chain.stepAt_cons_iff.1 hnext
      obtain rfl := Option.some.inj (hc.symm.trans hchild)
      exact ⟨_, hafter⟩
    · rintro ⟨⟨after, events⟩, hafter⟩
      exact ⟨_, Chain.stepAt_cons_iff.2 ⟨c, after, hc, hafter, rfl⟩⟩
  refine ⟨h, apart, hfree, fun i c hc hunended => ?_, fun now move => ?_⟩
  · obtain ⟨rest, move, next, events, hmove, hmade⟩ | hwaits :=
      Chain.goes_on e.registry.contains (Chain.branchName name stop.state i) c hunended
    · refine .inl ⟨rest, move, hmove, fun now => ?_⟩
      rw [hfree i c rest now move hc, hmade]
      rfl
    · exact .inr hwaits
  · have hself := h.isSome_step [] now move
    rw [List.append_nil] at hself
    rw [hself, Option.isSome_iff_exists]
    constructor
    · rintro ⟨⟨next, events⟩, hnext⟩
      obtain ⟨rfl, results, rfl, -⟩ := Chain.join_of_step hnext
      refine ⟨rfl, fun c hc => ?_⟩
      obtain ⟨r, -, rfl⟩ := List.mem_map.1 hc
      exact Option.some_ne_none r
    · rintro ⟨rfl, hall⟩
      obtain ⟨results, rfl⟩ := Chain.exists_results hall
      obtain ⟨next, events, hstep⟩ := Chain.exists_step_join e.registry.contains name stop results
      exact ⟨_, hstep⟩

/-- On the way a fork has been joined: then all branches had ended, each on a course of its own, and
what the chain that forked became was made of their results. -/
structure Joined (d : Engine) (id : String) (address : List Nat) (name : String) (stop : Stop)
    (first : List Chain) (actions : List Action) (e : Engine) : Prop where
  parts : ∃ before now after, actions = before ++ .move now (.chain id address .join) :: after ∧
    ∃ mid seen results mid' shown next more, Run d before mid seen ∧
      mid.Standing id address name stop first (chainEvents id seen) (results.map .ended) ∧
      Happens mid (.move now (.chain id address .join)) mid' shown ∧
      Joins stop results next ∧ mid'.Stands id address name next ∧ Run mid' after e more

theorem Joined.next {d e after : Engine} {id name : String} {address : List Nat} {stop : Stop}
    {first : List Chain} {actions : List Action} {a : Action} {more : List Event}
    (h : Joined d id address name stop first actions e) (happens : Happens e a after more) :
    Joined d id address name stop first (actions ++ [a]) after := by
  obtain ⟨before, now, later, rfl, mid, seen, results, mid', shown, next, more', hbefore, hstanding,
    hjoin, hjoins, hnext, hlater⟩ := h.parts
  refine ⟨before, now, later ++ [a], by simp, mid, seen, results, mid', shown, next, _, hbefore,
    hstanding, hjoin, hjoins, hnext, hlater.next happens⟩

/-- As long as the execution is not cut off, a fork stands as it should or has been joined. -/
theorem Run.fork {d e : Engine} {actions : List Action} {events : List Event} {id name : String}
    {address : List Nat} {stop : Stop} {first : List Chain} (hrun : Run d actions e events)
    (hfirst : d.Stands id address name (.forked stop first))
    (huncut : ∀ a ∈ actions, ¬a.Cuts id) :
    (∃ branches, e.Standing id address name stop first (chainEvents id events) branches) ∨
      Joined d id address name stop first actions e := by
  induction hrun with
  | rest => exact .inl ⟨first, standing_of_stands hfirst (Chain.apart_refl _ _ _)⟩
  | @next actions a e after events more before happens ih =>
    have hearlier : ∀ b ∈ actions, ¬b.Cuts id := fun b hb => huncut b (List.mem_append_left _ hb)
    obtain ⟨branches, hstanding⟩ | hjoined := ih hearlier
    case inr => exact .inr (hjoined.next happens)
    have hregistry := happens.registry
    have hapart := hstanding.apart
    obtain ⟨x, c, hx, hphase, hreaches⟩ := hstanding.stands
    have hgoes := happens.goes (huncut a (by simp)) hx hphase
    rw [chainEvents_append]
    cases hgoes with
    | stays there phase nothing =>
      refine .inl ⟨branches, standing_of_stands ⟨_, c, there, phase, hreaches⟩ ?_⟩
      rw [hregistry]
      exact hapart.elsewhere (by rw [nothing]; rfl)
    | @moves y now other move next action honest made there phase =>
      by_cases hother : address <+: other
      · obtain ⟨rest, rfl⟩ := hother
        obtain ⟨moved, hmoved, hreached⟩ := hreaches.stepAt made
        cases rest with
        | nil =>
          obtain ⟨rfl, results, rfl, hjoins, -⟩ := Chain.join_of_step hmoved
          rw [List.append_nil] at action
          subst action
          exact .inr ⟨actions, now, [], by simp, e, events, results, after, more, moved, [], before,
            hstanding, happens, hjoins, ⟨y, next, there, phase, hreached⟩, .rest⟩
        | cons i rest =>
          obtain ⟨child, grown, hchild, hgrown, rfl⟩ := Chain.stepAt_cons_iff.1 hmoved
          refine .inl ⟨_, standing_of_stands ⟨y, next, there, phase, hreached⟩ ?_⟩
          rw [hregistry]
          exact hapart.move hchild ((honest.reached hreaches).child hchild) hgrown
      · obtain ⟨hreached, hnothing⟩ := hreaches.stepAt_elsewhere rfl hother made
        refine .inl ⟨branches, standing_of_stands ⟨y, next, there, phase, hreached⟩ ?_⟩
        rw [hregistry]
        exact hapart.elsewhere hnothing
    | settles ended => exact absurd (hreaches.result?_eq_none rfl) ended

/-- A chain that enters a parallel state forks into one branch for each machine, all of them with
its document. From then on, whatever happens but for a cut, every branch goes its own way to its
own end; and only when all have ended the chain goes on, with their documents in the order of the
machine or as the first failure in that order has it. The address is that of any chain, so this
holds of forks inside forks. -/
theorem forks_and_joins {e : Engine} {id name : String} {address : List Nat} {m : Machine}
    {state : String} {doc : Document} {machines : List Machine} {strays : List Value} {next : Value}
    (hready : e.Stands id address name (.ready m state doc))
    (hstate : m.state? state = some (.parallel machines strays next)) (now : Instant) :
    let stop : Stop := ⟨m, state, next, doc⟩
    let branches := machines.map fun b => Chain.created b doc
    (∃ d shown, Happens e (.move now (.chain id address .enter)) d shown) ∧
      ∀ d shown, Happens e (.move now (.chain id address .enter)) d shown →
        d.Stands id address name (.forked stop branches) ∧
          ∀ actions after more, Run d actions after more → (∀ a ∈ actions, ¬a.Cuts id) →
            (∃ now, after.Standing id address name stop branches (chainEvents id more) now) ∨
              Joined d id address name stop branches actions after := by
  intro stop branches
  have henter : Chain.stepAt e.registry.contains .enter [] name (.ready m state doc) =
      some (.forked stop branches, [.entered name state "Parallel"]) := by
    simp only [Chain.stepAt, Chain.step, Chain.move?, hstate]
    rfl
  constructor
  · have hmay := hready.isSome_step [] now .enter
    rw [henter, List.append_nil] at hmay
    obtain ⟨⟨d, shown⟩, hstep⟩ := Option.isSome_iff_exists.1 hmay
    exact ⟨d, shown, .moved (fun _ _ _ _ => trivial) hstep⟩
  · intro d shown happens
    have hforked : d.Stands id address name (.forked stop branches) := by
      obtain ⟨x, c, hx, hphase, hreaches⟩ := hready
      cases happens with
      | moved honest done =>
        obtain ⟨next, y, made, hy, hnext⟩ := (moves_of_step done).chain_spec hx hphase
        rw [← List.append_nil address] at made
        obtain ⟨after, hafter, hreached⟩ := hreaches.stepAt made
        obtain ⟨rfl, -⟩ := Prod.mk.inj (Option.some.inj (henter.symm.trans hafter))
        exact ⟨y, next, hy, hnext, hreached⟩
    exact ⟨hforked, fun actions after more hrun huncut => hrun.fork hforked huncut⟩

/-- The first branch forks again, and both the second branch and one branch of the inner fork
fail. -/
def nested : Machine :=
  .mk "Outer"
    [("Outer", .parallel
      [.mk "Inner"
        [("Inner", .parallel
          [.mk "Rest" [("Rest", .succeed)] "",
            .mk "Deep" [("Deep", .fail .null (.str "Deep"))] ""] [] .null)] "",
        .mk "Flat" [("Flat", .fail .null (.str "Flat"))] ""] [] .null)]
    ""

/-- An execution that is about to enter the outer fork. -/
def nesting : Option Engine :=
  (performNew ⟨0⟩ "n" nested (.dict []) (.int 60) [.move (.begin "n")] (make ⟨[]⟩ none 0)).map (·.2.1)

/-- The second branch of the outer fork fails first, and the first branch of the inner fork ends
last. -/
def unnesting : List Choice :=
  [.move (.chain "n" [1] .begin), .move (.chain "n" [1] .enter), .move (.chain "n" [0] .begin),
    .move (.chain "n" [0] .enter), .move (.chain "n" [0, 1] .begin),
    .move (.chain "n" [0, 1] .enter), .move (.chain "n" [0, 0] .begin),
    .move (.chain "n" [0, 0] .enter), .move (.chain "n" [0] .join), .move (.chain "n" [] .join),
    .move (.settle "n")]

def forksNext (x : Execution) : Bool :=
  match x.phase with
  | .running (.ready m state _) =>
    match m.state? state with
    | some (.parallel ..) => true
    | _ => false
  | _ => false

def failsDeep (x : Execution) : Bool :=
  x.outcome?.any fun o => match o.error with
    | .str code => code = "Deep"
    | _ => false

theorem forks_and_joins_nested :
    ∃ e d after actions m state doc machines strays next, e.Stands "n" [] "" (.ready m state doc) ∧
      m.state? state = some (.parallel machines strays next) ∧
      (∃ shown, Happens e (.move ⟨1⟩ (.chain "n" [] .enter)) d shown) ∧
      (∃ more, Run d actions after more) ∧
      Joined d "n" [] "" ⟨m, state, next, doc⟩ (machines.map fun b => .created b doc) actions after ∧
      ∃ x, after.execution? "n" = some x ∧ failsDeep x = true := by
  have hcomputed : nesting.any (fun e => (e.execution? "n").any forksNext &&
      (e.step ⟨1⟩ (.chain "n" [] .enter)).any fun entered =>
        (perform ⟨2⟩ unnesting entered.1).any fun run => (run.1.all fun a => ¬a.Cuts "n") &&
          (run.2.1.execution? "n").any failsDeep) = true := by decide +kernel
  obtain ⟨e, -, he⟩ := (Option.any_eq_true _ _).1 hcomputed
  obtain ⟨hnext, hrest⟩ := Bool.and_eq_true_iff.1 he
  obtain ⟨x, hx, hready⟩ := (Option.any_eq_true _ _).1 hnext
  obtain ⟨⟨d, shown⟩, hstep, hrest⟩ := (Option.any_eq_true _ _).1 hrest
  obtain ⟨⟨actions, after, more⟩, hperform, hrest⟩ := (Option.any_eq_true _ _).1 hrest
  obtain ⟨hall, hend⟩ := Bool.and_eq_true_iff.1 hrest
  obtain ⟨y, hy, hdeep⟩ := (Option.any_eq_true _ _).1 hend
  unfold forksNext at hready
  split at hready
  case h_2 => cases hready
  case h_1 m state doc hphase =>
    split at hready
    case h_2 => cases hready
    case h_1 machines strays next hstate =>
      have hstands : e.Stands "n" [] "" (.ready m state doc) := ⟨x, _, hx, hphase, .here _ _⟩
      have henters : Happens e (.move ⟨1⟩ (.chain "n" [] .enter)) d shown :=
        .moved (fun _ _ _ _ => trivial) hstep
      have hrest : Run d [] d [] := .rest
      have hrun : Run d actions after more := hrest.perform hperform
      have huncut : ∀ a ∈ actions, ¬a.Cuts "n" := by
        intro a ha
        simpa using List.all_eq_true.1 hall a ha
      obtain ⟨-, hforks⟩ := forks_and_joins hstands hstate ⟨1⟩
      obtain ⟨-, hruns⟩ := hforks d shown henters
      refine ⟨e, d, after, actions, m, state, doc, machines, strays, next, hstands, hstate,
        ⟨shown, henters⟩, ⟨more, hrun⟩, ?_, y, hy, hdeep⟩
      obtain ⟨branches, hstanding⟩ | hjoined := hruns actions after more hrun huncut
      · -- An execution that has an outcome has no fork that stands.
        obtain ⟨z, c, hz, hrunning, -⟩ := hstanding.stands
        obtain rfl := Option.some.inj (hy.symm.trans hz)
        simp [failsDeep, Execution.outcome?, hrunning, Phase.end?] at hdeep
      · exact hjoined

end ReminderFlow.Engine
