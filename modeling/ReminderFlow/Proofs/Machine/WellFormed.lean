import Mathlib.Logic.Relation
import Mathlib.Tactic.Common
import ReminderFlow.Machine.Check

namespace ReminderFlow

theorem bind_eq_ok_iff {α β ε : Type} {x : Except ε α} {f : α → Except ε β} {b : β} :
    (x >>= f) = .ok b ↔ ∃ a, x = .ok a ∧ f a = .ok b := by
  cases x with
  | error e => simp [bind, Except.bind]
  | ok a => simp [bind, Except.bind]

theorem map_eq_ok_iff {α β ε : Type} {x : Except ε α} {f : α → β} {b : β} :
    x.map f = .ok b ↔ ∃ a, x = .ok a ∧ f a = b := by
  cases x with
  | error e => simp [Except.map]
  | ok a => simp [Except.map]

theorem bind_eq_error_iff {α β ε : Type} {x : Except ε α} {f : α → Except ε β} {e : ε} :
    (x >>= f) = .error e ↔ x = .error e ∨ ∃ a, x = .ok a ∧ f a = .error e := by
  cases x with
  | error e' => simp [bind, Except.bind]
  | ok a => simp [bind, Except.bind]

theorem map_eq_error_iff {α β ε : Type} {x : Except ε α} {f : α → β} {e : ε} :
    x.map f = .error e ↔ x = .error e := by
  cases x <;> simp [Except.map]

theorem andThen_eq_ok_iff {β ε : Type} {x : Except ε Unit} {y : Except ε β} {b : β} :
    (x >>= fun _ => y) = .ok b ↔ x = .ok () ∧ y = .ok b := by
  rw [bind_eq_ok_iff]
  constructor
  · rintro ⟨⟨⟩, hx, hy⟩
    exact ⟨hx, hy⟩
  · rintro ⟨hx, hy⟩
    exact ⟨(), hx, hy⟩

theorem eq_ok_get {ε α : Type} {x : Except ε α} (h : x.toOption.isSome = true) :
    x = .ok (x.toOption.get h) := by
  cases x with
  | error e => cases h
  | ok a => rfl

theorem eq_ok_of_toOption {ε α : Type} {x : Except ε α} {a : α} (h : x.toOption = some a) :
    x = .ok a := by
  cases x with
  | error e => cases h
  | ok b =>
    cases h
    rfl

theorem eq_ok_of_isSome {ε : Type} {x : Except ε Unit} (h : x.toOption.isSome = true) :
    x = .ok () := eq_ok_get h

namespace Value

theorem isNull_iff {v : Value} : v.isNull = true ↔ v = null := by
  cases v <;> simp [isNull]

theorem isNull_eq_false_iff {v : Value} : v.isNull = false ↔ v ≠ null := by
  rw [Ne, ← isNull_iff, Bool.not_eq_true]

/-- A text that is a reference path. -/
def IsPath (v : Value) : Prop := ∃ tokens, Path.parseValue v = .ok tokens

/-- A number that is a finite double, or whole and rounds to one. -/
def IsFiniteNumber : Value → Prop
  | int n => fitsDouble n = true
  | float x => x.isFinite = true
  | _ => False

/-- A finite number that is not negative. -/
def IsDuration : Value → Prop
  | int n => fitsDouble n = true ∧ 0 ≤ n
  | float x => x.isFinite = true ∧ 0 ≤ x.scaled
  | _ => False

theorem IsPath.exists_str {v : Value} (h : v.IsPath) : ∃ s, v = .str s := by
  obtain ⟨tokens, h⟩ := h
  cases v with
  | str s => exact ⟨s, rfl⟩
  | _ => simp [Path.parseValue, Path.parseDatum, Datum.ofValue] at h

theorem finiteNumber?_eq_ok_true_iff {v : Value} :
    v.finiteNumber? = .ok true ↔ v.IsFiniteNumber := by
  cases v with
  | int n => by_cases h : fitsDouble n = true <;> simp [finiteNumber?, IsFiniteNumber, h]
  | _ => simp [finiteNumber?, IsFiniteNumber]

theorem duration?_eq_ok_iff {v : Value} : (∃ t, v.duration? = .ok t) ↔ v.IsDuration := by
  cases v with
  | int n =>
    by_cases h : fitsDouble n = true
    · by_cases hneg : n < 0
      · simp [duration?, IsDuration, h, hneg]
      · simp [duration?, IsDuration, h, hneg, Int.not_lt.1 hneg]
    · simp [duration?, IsDuration, h]
  | float x =>
    by_cases h : x.isFinite = true ∧ 0 ≤ x.scaled
    · simp [duration?, IsDuration, h]
    · simp only [duration?, Bool.and_eq_true, decide_eq_true_eq, IsDuration, h, if_false,
        reduceCtorEq, exists_false]
  | _ => simp [duration?, IsDuration]

end Value

theorem checkPath_eq_ok_iff {v : Value} : checkPath v = .ok () ↔ v.IsPath := by
  unfold checkPath Value.IsPath
  cases Path.parseValue v <;> simp

/-- What the operand of a comparison has to be. -/
def Comparison.Fits (operand : Value) : Comparison → Prop
  | stringEquals => ∃ s, operand = .str s
  | numericEquals | numericLessThan | numericGreaterThan => operand.IsFiniteNumber
  | booleanEquals | isPresent => ∃ b, operand = .bool b

theorem Comparison.accepts_eq_ok_true_iff {op : Comparison} {operand : Value} :
    op.accepts operand = .ok true ↔ op.Fits operand := by
  cases op with
  | stringEquals => cases operand <;> simp [accepts, Fits, Value.str?]
  | numericEquals => exact Value.finiteNumber?_eq_ok_true_iff
  | numericLessThan => exact Value.finiteNumber?_eq_ok_true_iff
  | numericGreaterThan => exact Value.finiteNumber?_eq_ok_true_iff
  | booleanEquals => cases operand <;> simp [accepts, Fits]
  | isPresent => cases operand <;> simp [accepts, Fits]

namespace Condition

inductive WellFormed : Condition → Prop
  | compare {op : Comparison} {variable_ operand : Value} (operandFits : op.Fits operand)
      (path : variable_.IsPath) : WellFormed (compare op variable_ operand)
  | all {conditions : List Condition} (nonempty : conditions ≠ [])
      (each : ∀ c ∈ conditions, WellFormed c) : WellFormed (all conditions)
  | any {conditions : List Condition} (nonempty : conditions ≠ [])
      (each : ∀ c ∈ conditions, WellFormed c) : WellFormed (any conditions)
  | not {condition : Condition} (inner : WellFormed condition) : WellFormed (not condition)

theorem wellFormed_compare_iff {op : Comparison} {variable_ operand : Value} :
    (compare op variable_ operand).WellFormed ↔ op.Fits operand ∧ variable_.IsPath := by
  constructor
  · intro h
    cases h with
    | compare operandFits path => exact ⟨operandFits, path⟩
  · exact fun h => .compare h.1 h.2

theorem wellFormed_all_iff {conditions : List Condition} :
    (all conditions).WellFormed ↔ conditions ≠ [] ∧ ∀ c ∈ conditions, c.WellFormed := by
  constructor
  · intro h
    cases h with
    | all nonempty each => exact ⟨nonempty, each⟩
  · exact fun h => .all h.1 h.2

theorem wellFormed_any_iff {conditions : List Condition} :
    (any conditions).WellFormed ↔ conditions ≠ [] ∧ ∀ c ∈ conditions, c.WellFormed := by
  constructor
  · intro h
    cases h with
    | any nonempty each => exact ⟨nonempty, each⟩
  · exact fun h => .any h.1 h.2

theorem wellFormed_not_iff {condition : Condition} :
    (not condition).WellFormed ↔ condition.WellFormed := by
  constructor
  · intro h
    cases h with
    | not inner => exact inner
  · exact .not

theorem checkCompare_eq_ok_iff {state : String} {op : Comparison} {variable_ operand : Value} :
    checkCompare state op variable_ operand = .ok () ↔
      op.Fits operand ∧ variable_.IsPath := by
  unfold checkCompare
  rw [← Comparison.accepts_eq_ok_true_iff]
  rcases op.accepts operand with fault | (_ | _)
  · simp
  · simp
  · simp only [true_and]
    constructor
    · intro h
      split at h
      · exact checkPath_eq_ok_iff.1 h
      · simp at h
    · intro h
      obtain ⟨s, rfl⟩ := h.exists_str
      exact checkPath_eq_ok_iff.2 h

mutual

theorem check_eq_ok_iff (state : String) :
    (c : Condition) → (c.check state = .ok () ↔ c.WellFormed)
  | compare op variable_ operand => by
    rw [check, checkCompare_eq_ok_iff, wellFormed_compare_iff]
  | all conditions => by
    rw [check, wellFormed_all_iff, ← checkEach_eq_ok_iff state conditions]
    cases conditions <;> simp
  | any conditions => by
    rw [check, wellFormed_any_iff, ← checkEach_eq_ok_iff state conditions]
    cases conditions <;> simp
  | not condition => by
    rw [check, check_eq_ok_iff state condition, wellFormed_not_iff]

theorem checkEach_eq_ok_iff (state : String) : (conditions : List Condition) →
    (checkEach state conditions = .ok () ↔ ∀ c ∈ conditions, c.WellFormed)
  | [] => by simp [checkEach]
  | c :: rest => by
    rw [checkEach, andThen_eq_ok_iff, check_eq_ok_iff state c, checkEach_eq_ok_iff state rest,
      List.forall_mem_cons]

end

end Condition

namespace State

/-- What the fields of a state have to be, its successors apart. -/
def WellFormed : State → Prop
  | wait secondsPath seconds _ =>
    (secondsPath ≠ .null ∧ seconds = .null ∧ secondsPath.IsPath) ∨
      (secondsPath = .null ∧ seconds ≠ .null ∧ seconds.IsDuration)
  | task resource inputPath outputPath _ =>
    resource.isTruthy = true ∧ inputPath.IsPath ∧ outputPath.IsPath
  | choice rules default =>
    rules ≠ [] ∧ default ≠ .null ∧ ∀ r ∈ rules, r.condition.WellFormed
  | parallel branches strays _ => branches ≠ [] ∧ strays = []
  | pass _ | fail _ _ | succeed => True

theorem checkWait_eq_ok_iff (name : String) {secondsPath seconds next : Value} :
    checkWait name secondsPath seconds = .ok () ↔ (wait secondsPath seconds next).WellFormed := by
  simp only [checkWait, WellFormed, ne_eq, ← Value.isNull_iff]
  cases secondsPath.isNull with
  | false =>
    cases seconds.isNull with
    | false => simp
    | true => simp [checkPath_eq_ok_iff]
  | true =>
    cases seconds.isNull with
    | true => simp
    | false =>
      rw [← Value.duration?_eq_ok_iff]
      rcases seconds.duration? with (_ | _) | t <;> simp

theorem checkRules_eq_ok_iff (name : String) {rules : List Rule} :
    checkRules name rules = .ok () ↔ ∀ r ∈ rules, r.condition.WellFormed := by
  induction rules with
  | nil => simp [checkRules]
  | cons r rest ih =>
    rw [checkRules, andThen_eq_ok_iff, Condition.check_eq_ok_iff, ih, List.forall_mem_cons]

theorem checkFields_eq_ok_iff (name : String) {s : State} :
    s.checkFields name = .ok () ↔ s.WellFormed := by
  cases s with
  | wait secondsPath seconds next => exact checkWait_eq_ok_iff name
  | task resource inputPath outputPath next =>
    simp only [checkFields, WellFormed]
    cases resource.isTruthy with
    | false => simp
    | true =>
      simp only [Bool.not_true, Bool.false_eq_true, if_false, true_and]
      rw [andThen_eq_ok_iff, checkPath_eq_ok_iff, checkPath_eq_ok_iff]
  | choice rules default =>
    simp only [checkFields, WellFormed, ne_eq, ← Value.isNull_iff, ← checkRules_eq_ok_iff name]
    cases rules with
    | nil => simp
    | cons r rest => cases default.isNull <;> simp
  | parallel branches strays next =>
    simp only [checkFields, WellFormed]
    cases branches <;> cases strays <;> simp
  | _ => simp [checkFields, WellFormed]

end State

namespace State

theorem checkTarget_eq_ok_iff (name : String) {names : List String} {target : Value} :
    checkTarget names name target = .ok () ↔ ∃ s ∈ names, target = .str s := by
  cases target with
  | str s => by_cases h : s ∈ names <;> simp [checkTarget, h]
  | _ => simp [checkTarget]

theorem checkTargets_eq_ok_iff (name : String) {names : List String} {targets : List Value} :
    checkTargets names name targets = .ok () ↔ ∀ v ∈ targets, ∃ s ∈ names, v = .str s := by
  induction targets with
  | nil => simp [checkTargets]
  | cons v rest ih =>
    rw [checkTargets, andThen_eq_ok_iff, checkTarget_eq_ok_iff, ih, List.forall_mem_cons]

end State

namespace Machine

/-- One state may follow another directly. -/
def Leads (m : Machine) (a b : String) : Prop := ∃ s, m.state? a = some s ∧ .str b ∈ s.successors

/-- A run may come to the state. -/
def Reachable (m : Machine) (name : String) : Prop := Relation.ReflTransGen m.Leads m.start name

/-- From the state a run may come to one in which it ends. -/
def CanEnd (m : Machine) (name : String) : Prop :=
  ∃ last s, Relation.ReflTransGen m.Leads name last ∧ m.state? last = some s ∧ s.isTerminal = true

/-- The start is a state, and each state is well formed by itself and leads to states only. -/
structure LocallyWellFormed (m : Machine) : Prop where
  start : m.start ∈ m.names
  fields : ∀ p ∈ m.states, p.2.WellFormed
  targets : ∀ p ∈ m.states, ∀ v ∈ p.2.successors, ∃ name ∈ m.names, v = .str name

structure WellFormed (m : Machine) : Prop extends LocallyWellFormed m where
  reachable : ∀ name ∈ m.names, m.Reachable name
  terminating : ∀ name ∈ m.names, m.CanEnd name

theorem mem_states_of_state? {m : Machine} {name : String} {s : State}
    (h : m.state? name = some s) : (name, s) ∈ m.states := by
  obtain ⟨before, after, heq, -⟩ := List.lookup_eq_some_iff.1 h
  rw [heq]
  simp

theorem mem_names_of_state? {m : Machine} {name : String} {s : State}
    (h : m.state? name = some s) : name ∈ m.names :=
  List.mem_map_of_mem (mem_states_of_state? h)

theorem exists_state?_of_mem_names {m : Machine} {name : String} (h : name ∈ m.names) :
    ∃ s, m.state? name = some s := by
  obtain ⟨p, hp, rfl⟩ := List.mem_map.1 h
  exact Option.isSome_iff_exists.1 (List.lookup_isSome_iff.2 ⟨p, hp, by simp⟩)

theorem checkStates_eq_ok_iff {names : List String} {states : List (String × State)} :
    checkStates names states = .ok () ↔
      ∀ p ∈ states, p.2.WellFormed ∧ ∀ v ∈ p.2.successors, ∃ s ∈ names, v = .str s := by
  induction states with
  | nil => simp [checkStates]
  | cons p rest ih =>
    rw [checkStates, andThen_eq_ok_iff, andThen_eq_ok_iff, State.checkFields_eq_ok_iff,
      State.checkTargets_eq_ok_iff, ih, List.forall_mem_cons, and_assoc]

/-- All that is checked of the states one by one. -/
theorem check_of_locallyWellFormed {m : Machine} (h : m.LocallyWellFormed) :
    m.check = m.checkGraph := by
  have hnonempty : m.states.isEmpty = false := by
    obtain ⟨p, hp, -⟩ := List.mem_map.1 h.start
    exact List.isEmpty_eq_false_iff.2 (List.ne_nil_of_mem hp)
  have hstates : checkStates m.names m.states = .ok () :=
    checkStates_eq_ok_iff.2 fun p hp => ⟨h.fields p hp, h.targets p hp⟩
  simp [check, hnonempty, h.start, hstates, bind, Except.bind]

theorem locallyWellFormed_of_check {m : Machine} (h : m.check = .ok ()) :
    m.LocallyWellFormed := by
  unfold check at h
  split_ifs at h with hempty hstart
  obtain ⟨hstates, -⟩ := andThen_eq_ok_iff.1 h
  have hstates := checkStates_eq_ok_iff.1 hstates
  exact ⟨by simpa using hstart, fun p hp => (hstates p hp).1, fun p hp => (hstates p hp).2⟩

theorem make?_eq_ok_iff {m made : Machine} :
    make? m.start m.states m.comment = .ok made ↔ m.check = .ok () ∧ made = m := by
  cases m with
  | mk start states comment =>
    simp only [make?, Machine.start, Machine.states, Machine.comment, andThen_eq_ok_iff]
    simp [pure, Except.pure, eq_comm]

theorem make?_eq_error_iff {m : Machine} {e : MachineError} :
    make? m.start m.states m.comment = .error e ↔ m.check = .error e := by
  cases m with
  | mk start states comment =>
    simp only [make?, Machine.start, Machine.states, Machine.comment, bind, Except.bind]
    cases (mk start states comment).check <;> simp [pure, Except.pure]

end Machine

end ReminderFlow
