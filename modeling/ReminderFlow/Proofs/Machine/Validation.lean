import ReminderFlow.Proofs.Json.Proper
import ReminderFlow.Proofs.Machine.Graph
import ReminderFlow.Proofs.Machine.WellFormed

namespace ReminderFlow

namespace Machine

open Relation (ReflTransGen)

theorem leads_iff {m : Machine} {a b : String} : m.leads a b = true ↔ m.Leads a b := by
  have hname (v : Value) : v.str? = some b ↔ v = .str b := by
    cases v <;> simp [Value.str?]
  unfold leads Leads
  cases m.state? a with
  | none => simp
  | some s => simp [hname]

theorem mem_names_of_leads {m : Machine} {a b : String} (h : m.Leads a b) : a ∈ m.names := by
  obtain ⟨s, hs, -⟩ := h
  exact mem_names_of_state? hs

theorem LocallyWellFormed.mem_names_of_leads {m : Machine} (h : m.LocallyWellFormed)
    {a b : String} (hab : m.Leads a b) : b ∈ m.names := by
  obtain ⟨s, hs, hb⟩ := hab
  obtain ⟨name, hname, heq⟩ := h.targets _ (mem_states_of_state? hs) _ hb
  obtain rfl := Value.str.inj heq
  exact hname

/-- Ways in the graph of a machine never leave its states. -/
theorem LocallyWellFormed.edge_eq {m : Machine} (h : m.LocallyWellFormed) :
    Graph.Edge m.leads m.names = m.Leads := by
  funext a b
  apply propext
  rw [Graph.Edge, leads_iff]
  exact ⟨And.left, fun hab => ⟨hab, h.mem_names_of_leads hab⟩⟩

theorem edge_swap_eq (m : Machine) :
    Graph.Edge (fun a b => m.leads b a) m.names = Function.swap m.Leads := by
  funext a b
  apply propext
  rw [Graph.Edge, leads_iff]
  exact ⟨And.left, fun hba => ⟨hba, mem_names_of_leads hba⟩⟩

theorem LocallyWellFormed.mem_unreachable_iff {m : Machine} (h : m.LocallyWellFormed)
    {name : String} : name ∈ m.unreachable ↔ name ∈ m.names ∧ ¬m.Reachable name := by
  rw [unreachable, Graph.mem_outside_iff, Graph.Reached, h.edge_eq, Reachable]
  simp [h.start]

theorem mem_terminals_iff {m : Machine} (hkeys : m.names.Nodup) {name : String} :
    name ∈ m.terminals ↔ ∃ s, m.state? name = some s ∧ s.isTerminal = true := by
  constructor
  · intro h
    obtain ⟨⟨n, s⟩, hmem, rfl⟩ := List.mem_map.1 h
    obtain ⟨hmem, hs⟩ := List.mem_filter.1 hmem
    exact ⟨s, Members.lookup_of_mem hkeys hmem, hs⟩
  · rintro ⟨s, hs, hterminal⟩
    exact List.mem_map.2 ⟨(name, s), List.mem_filter.2 ⟨mem_states_of_state? hs, hterminal⟩, rfl⟩

theorem mem_endless_iff {m : Machine} (hkeys : m.names.Nodup) {name : String} :
    name ∈ m.endless ↔ name ∈ m.names ∧ ¬m.CanEnd name := by
  have hreached : Graph.Reached (fun a b => m.leads b a) m.names m.terminals name ↔
      m.CanEnd name := by
    rw [Graph.Reached, m.edge_swap_eq]
    constructor
    · rintro ⟨last, hlast, -, hway⟩
      obtain ⟨s, hs, hterminal⟩ := (mem_terminals_iff hkeys).1 hlast
      exact ⟨last, s, Relation.reflTransGen_swap.1 hway, hs, hterminal⟩
    · rintro ⟨last, s, hway, hs, hterminal⟩
      exact ⟨last, (mem_terminals_iff hkeys).2 ⟨s, hs, hterminal⟩, mem_names_of_state? hs,
        Relation.reflTransGen_swap.2 hway⟩
  rw [endless, Graph.mem_outside_iff, hreached]

/-- Everything that the check of the graph may find. -/
theorem checkGraph_cases (m : Machine) :
    (m.unreachable ≠ [] ∧ m.checkGraph = .error (.unreachable m.unreachable)) ∨
      (m.unreachable = [] ∧ m.endless ≠ [] ∧ m.checkGraph = .error (.endless m.endless)) ∨
      (m.unreachable = [] ∧ m.endless = [] ∧ m.checkGraph = .ok ()) := by
  unfold checkGraph
  cases m.unreachable with
  | cons n more => exact .inl ⟨List.cons_ne_nil n more, rfl⟩
  | nil =>
    cases m.endless with
    | cons n more => exact .inr (.inl ⟨rfl, List.cons_ne_nil n more, rfl⟩)
    | nil => exact .inr (.inr ⟨rfl, rfl, rfl⟩)

/-- The list holds exactly the names with a property, in their order. -/
def Lists (property : String → Prop) (names : List String) : Prop :=
  names.Pairwise (· ≤ ·) ∧ names.Nodup ∧ ∀ name, name ∈ names ↔ property name

theorem LocallyWellFormed.lists_unreachable {m : Machine} (h : m.LocallyWellFormed)
    (hkeys : m.names.Nodup) :
    Lists (fun name => name ∈ m.names ∧ ¬m.Reachable name) m.unreachable :=
  ⟨Graph.pairwise_outside _, Graph.nodup_outside hkeys _, fun _ => h.mem_unreachable_iff⟩

theorem lists_endless {m : Machine} (hkeys : m.names.Nodup) :
    Lists (fun name => name ∈ m.names ∧ ¬m.CanEnd name) m.endless :=
  ⟨Graph.pairwise_outside _, Graph.nodup_outside hkeys _, fun _ => mem_endless_iff hkeys⟩

/-- No name is listed if and only if none has the property. -/
theorem Lists.eq_nil_iff {names all : List String} {good : String → Prop}
    (h : Lists (fun name => name ∈ all ∧ ¬good name) names) :
    names = [] ↔ ∀ name ∈ all, good name := by
  rw [List.eq_nil_iff_forall_not_mem]
  constructor
  · intro hnone name hname
    by_contra hbad
    exact hnone name ((h.2.2 name).2 ⟨hname, hbad⟩)
  · intro hall name hname
    obtain ⟨hmem, hbad⟩ := (h.2.2 name).1 hname
    exact hbad (hall name hmem)

theorem check_eq_ok_iff {m : Machine} (hkeys : m.names.Nodup) :
    m.check = .ok () ↔ m.WellFormed := by
  constructor
  · intro h
    have hlocal := locallyWellFormed_of_check h
    rw [check_of_locallyWellFormed hlocal] at h
    rcases m.checkGraph_cases with ⟨-, hgraph⟩ | ⟨-, -, hgraph⟩ | ⟨hreach, hends, -⟩
    · simp [hgraph] at h
    · simp [hgraph] at h
    · exact ⟨hlocal, (hlocal.lists_unreachable hkeys).eq_nil_iff.1 hreach,
        (lists_endless hkeys).eq_nil_iff.1 hends⟩
  · intro h
    have hlocal := h.toLocallyWellFormed
    have hreach := (hlocal.lists_unreachable hkeys).eq_nil_iff.2 h.reachable
    have hends := (lists_endless hkeys).eq_nil_iff.2 h.terminating
    rw [check_of_locallyWellFormed hlocal, checkGraph, hreach, hends]

/-- If nothing but the graph is wrong then states are reported exactly if some cannot be reached. -/
theorem LocallyWellFormed.check_eq_unreachable_iff {m : Machine} (h : m.LocallyWellFormed)
    {names : List String} :
    m.check = .error (.unreachable names) ↔ names ≠ [] ∧ names = m.unreachable := by
  rw [check_of_locallyWellFormed h]
  rcases m.checkGraph_cases with ⟨hreach, hgraph⟩ | ⟨hreach, -, hgraph⟩ | ⟨hreach, -, hgraph⟩
  · rw [hgraph]
    constructor
    · intro heq
      cases heq
      exact ⟨hreach, rfl⟩
    · rintro ⟨-, rfl⟩
      rfl
  · rw [hgraph, hreach]
    simp
  · rw [hgraph, hreach]
    simp

theorem LocallyWellFormed.check_eq_endless_iff {m : Machine} (h : m.LocallyWellFormed)
    {names : List String} :
    m.check = .error (.endless names) ↔
      m.unreachable = [] ∧ names ≠ [] ∧ names = m.endless := by
  rw [check_of_locallyWellFormed h]
  rcases m.checkGraph_cases with ⟨hreach, hgraph⟩ | ⟨hreach, hends, hgraph⟩ |
    ⟨hreach, hends, hgraph⟩
  · rw [hgraph]
    simp [hreach]
  · rw [hgraph]
    constructor
    · intro heq
      cases heq
      exact ⟨hreach, hends, rfl⟩
    · rintro ⟨-, -, rfl⟩
      rfl
  · rw [hgraph, hends]
    simp

theorem Lists.ne_nil_iff {names all : List String} {good : String → Prop}
    (h : Lists (fun name => name ∈ all ∧ ¬good name) names) :
    names ≠ [] ↔ ∃ name ∈ all, ¬good name := by
  rw [Ne, h.eq_nil_iff]
  push Not
  rfl

/-- A machine is made if and only if it is well formed; if nothing but the graph is wrong then the
states that are reported are exactly those that cannot be reached, or else those from which no end
can be reached. -/
theorem made_iff_wellFormed (m : Machine) (hkeys : m.names.Nodup) :
    (∀ made, make? m.start m.states m.comment = .ok made ↔ m.WellFormed ∧ made = m) ∧
    (m.LocallyWellFormed →
      ((∃ names, make? m.start m.states m.comment = .error (.unreachable names)) ↔
        ∃ name ∈ m.names, ¬m.Reachable name) ∧
      (∀ names, make? m.start m.states m.comment = .error (.unreachable names) →
        Lists (fun name => name ∈ m.names ∧ ¬m.Reachable name) names) ∧
      ((∃ names, make? m.start m.states m.comment = .error (.endless names)) ↔
        (∀ name ∈ m.names, m.Reachable name) ∧ ∃ name ∈ m.names, ¬m.CanEnd name) ∧
      (∀ names, make? m.start m.states m.comment = .error (.endless names) →
        Lists (fun name => name ∈ m.names ∧ ¬m.CanEnd name) names)) := by
  refine ⟨fun made => ?_, fun hlocal => ?_⟩
  · rw [make?_eq_ok_iff, check_eq_ok_iff hkeys]
  · have hlists := hlocal.lists_unreachable hkeys
    have hends := lists_endless hkeys
    simp only [make?_eq_error_iff, hlocal.check_eq_unreachable_iff, hlocal.check_eq_endless_iff]
    refine ⟨?_, ?_, ?_, ?_⟩
    · rw [← hlists.ne_nil_iff]
      constructor
      · rintro ⟨names, hne, rfl⟩
        exact hne
      · exact fun hne => ⟨_, hne, rfl⟩
    · rintro names ⟨-, rfl⟩
      exact hlists
    · rw [← hlists.eq_nil_iff, ← hends.ne_nil_iff]
      constructor
      · rintro ⟨names, hreach, hne, rfl⟩
        exact ⟨hreach, hne⟩
      · exact fun ⟨hreach, hne⟩ => ⟨_, hreach, hne, rfl⟩
    · rintro names ⟨-, -, rfl⟩
      exact hends

/-- Two states that only lead to each other, entered by a choice that may as well avoid them. -/
def trap : Machine :=
  mk "Ask"
    [("Ask", .choice [⟨.not (.compare .isPresent (.str "$.way[0]") (.bool true)), .str "Round"⟩]
      (.str "Out")),
     ("About", .pass (.str "Round")),
     ("Round", .pass (.str "About")),
     ("Out", .succeed)]
    ""

theorem locallyWellFormed_trap : trap.LocallyWellFormed := by
  have hpath : (Value.str "$.way[0]").IsPath := by
    have hsome : (Path.parseValue (.str "$.way[0]")).toOption.isSome = true := by decide +kernel
    unfold Value.IsPath
    cases h : Path.parseValue (.str "$.way[0]") with
    | ok tokens => exact ⟨tokens, rfl⟩
    | error e =>
      rw [h] at hsome
      cases hsome
  refine ⟨by decide, fun p hp => ?_, fun p hp => ?_⟩
  · simp only [trap, states, List.mem_cons, List.not_mem_nil, or_false] at hp
    rcases hp with rfl | rfl | rfl | rfl
    · simp [State.WellFormed, Condition.wellFormed_not_iff, Condition.wellFormed_compare_iff,
        Comparison.Fits, hpath]
    all_goals trivial
  · simp only [trap, states, List.mem_cons, List.not_mem_nil, or_false] at hp
    rcases hp with rfl | rfl | rfl | rfl <;>
      simp [State.successors, State.someUnlessNull, State.next, Value.isNull, names, Members.keys,
        trap, states]

theorem made_iff_wellFormed_trap :
    trap.names.Nodup ∧ trap.LocallyWellFormed ∧
      make? trap.start trap.states trap.comment = .error (.endless ["About", "Round"]) ∧
      Lists (fun name => name ∈ trap.names ∧ ¬trap.CanEnd name) ["About", "Round"] ∧
      (∀ name ∈ trap.names, trap.Reachable name) ∧ ¬trap.WellFormed := by
  have hkeys : trap.names.Nodup := by decide
  have hlocal := locallyWellFormed_trap
  have hunreachable : trap.unreachable = [] := by decide +kernel
  have hendless : trap.endless = ["About", "Round"] := by
    have hrest : (trap.names.filter fun n => !(Graph.closure (fun a b => trap.leads b a) trap.names
        trap.terminals).contains n) = ["About", "Round"] := by decide +kernel
    rw [endless, Graph.outside, hrest]
    exact List.mergeSort_of_pairwise (by decide)
  have herror : make? trap.start trap.states trap.comment =
      .error (.endless ["About", "Round"]) := by
    rw [make?_eq_error_iff, hlocal.check_eq_endless_iff]
    exact ⟨hunreachable, by simp, hendless.symm⟩
  obtain ⟨hmade, hgraph⟩ := made_iff_wellFormed trap hkeys
  obtain ⟨-, -, hstuck, hlists⟩ := hgraph hlocal
  refine ⟨hkeys, hlocal, herror, hlists _ herror, (hstuck.1 ⟨_, herror⟩).1, fun hgood => ?_⟩
  have hok := (hmade trap).2 ⟨hgood, rfl⟩
  rw [herror] at hok
  cases hok

end Machine

end ReminderFlow
