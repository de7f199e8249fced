import ReminderFlow.Proofs.Condition.Numeric
import ReminderFlow.Proofs.Document
import ReminderFlow.Run.Chain

namespace ReminderFlow

theorem Value.IsProper.exists_rational {v : Value} (hv : v.IsProper) {a : Number}
    (h : v.number? = some a) : ∃ x, v.rational? = some x := by
  cases hv with
  | int n => exact ⟨n, rfl⟩
  | float finite => exact Number.exists_toRat_of_isFinite finite
  | _ => cases h

namespace Comparison

/-- What a comparison says of what was found, if anything was. Of a value of another type it says
no. -/
def agrees (found : Option Value) (operand : Value) : Comparison → Bool
  | stringEquals =>
    match found, operand with
    | some (.str a), .str b => a = b
    | _, _ => false
  | booleanEquals =>
    match found, operand with
    | some (.bool a), .bool b => a = b
    | _, _ => false
  | isPresent =>
    match operand with
    | .bool wanted => found.isSome = wanted
    | _ => false
  | op =>
    match found.bind Value.rational?, operand.rational? with
    | some x, some y => op.relates x y
    | _, _ => false

variable {op : Comparison} {actual operand : Value}

theorem matches?_of_numeric (hop : op ∈ numeric) (hactual : actual.IsProper) (hfits : op.Fits operand) :
    op.matches? actual operand =
      .ok (match actual.rational?, operand.rational? with
        | some x, some y => op.relates x y
        | _, _ => false) := by
  obtain ⟨y, hy⟩ := exists_rational_of_fits hop hfits
  cases hnumber : actual.number? with
  | none =>
    have hnone : actual.rational? = none := by rw [Value.rational?, hnumber, Option.bind_none]
    rw [matches?_of_not_number hop hnumber, hnone]
  | some a =>
    obtain ⟨x, hx⟩ := hactual.exists_rational hnumber
    rw [matches?_of_rational hop hx hy, hx, hy]

theorem matches?_eq_agrees (hactual : actual.IsProper) (hfits : op.Fits operand) :
    op.matches? actual operand = .ok (op.agrees (some actual) operand) := by
  cases op with
  | numericEquals => exact matches?_of_numeric (by decide) hactual hfits
  | numericLessThan => exact matches?_of_numeric (by decide) hactual hfits
  | numericGreaterThan => exact matches?_of_numeric (by decide) hactual hfits
  | isPresent =>
    obtain ⟨wanted, rfl⟩ := hfits
    cases wanted <;> rfl
  | stringEquals =>
    obtain ⟨s, rfl⟩ := hfits
    cases actual <;> rfl
  | booleanEquals =>
    obtain ⟨b, rfl⟩ := hfits
    cases actual <;> rfl

/-- Only the question whether something is there can be answered where nothing is. -/
theorem absent_of_ne (hop : op ≠ isPresent) (path : String) (operand : Value) :
    op.absent path operand = .error (.notFound path) := by
  cases op with
  | isPresent => exact absurd rfl hop
  | _ => rfl

end Comparison

namespace Condition

/-- A comparison as it stands in a condition. -/
structure Leaf where
  op : Comparison
  variable_ : Value
  operand : Value

variable {doc : Document}

namespace Leaf

def path (l : Leaf) : String := Document.pathText (Datum.ofValue l.variable_)

def found? (doc : Document) (l : Leaf) : Option Value :=
  (Path.parseValue l.variable_).toOption.bind doc.value.getAt

/-- Whether the comparison asks for what is not there. -/
def misses (doc : Document) (l : Leaf) : Bool :=
  l.op ≠ .isPresent && (l.found? doc).isNone

def agrees (doc : Document) (l : Leaf) : Bool := l.op.agrees (l.found? doc) l.operand

/-- A value for each comparison, which is the right one where something is there to be compared. -/
def Values (doc : Document) (truth : Leaf → Bool) : Prop :=
  ∀ l, l.misses doc = false → truth l = l.agrees doc

/-- What comes of looking at some comparisons in turn: the first that asks for what is not there
raises. -/
def outcome (doc : Document) (leaves : List Leaf) (value : Bool) : Except ConditionError Bool :=
  match leaves.find? (misses doc) with
  | some l => .error (.notFound l.path)
  | none => .ok value

theorem outcome_of_forall {leaves : List Leaf} (h : ∀ l ∈ leaves, l.misses doc = false) (value : Bool) :
    outcome doc leaves value = .ok value := by
  have hnone : leaves.find? (misses doc) = none := by simpa using h
  rw [outcome, hnone]

theorem outcome_of_misses {l : Leaf} (h : l.misses doc = true) (value : Bool) :
    outcome doc [l] value = .error (.notFound l.path) := by
  have hfind : [l].find? (misses doc) = some l := by simp [h]
  rw [outcome, hfind]

theorem Values.outcome {truth : Leaf → Bool} (htruth : Values doc truth) {l : Leaf}
    (h : l.misses doc = false) : Leaf.outcome doc [l] (truth l) = .ok (l.agrees doc) := by
  rw [outcome_of_forall (by simpa using h), htruth l h]

theorem outcome_map (f : Bool → Bool) (leaves : List Leaf) (value : Bool) :
    (outcome doc leaves value).map f = outcome doc leaves (f value) := by
  unfold outcome
  cases leaves.find? (misses doc) <;> rfl

theorem outcome_append (leaves more : List Leaf) (value : Bool) :
    outcome doc (leaves ++ more) value =
      match leaves.find? (misses doc) with
      | some l => .error (.notFound l.path)
      | none => outcome doc more value := by
  unfold outcome
  rw [List.find?_append]
  cases leaves.find? (misses doc) <;> rfl

end Leaf

mutual

/-- The truth value of a condition, given those of its comparisons. -/
def isTrue (truth : Leaf → Bool) : Condition → Bool
  | compare op variable_ operand => truth ⟨op, variable_, operand⟩
  | all conditions => allTrue truth conditions
  | any conditions => anyTrue truth conditions
  | not condition => !isTrue truth condition

def allTrue (truth : Leaf → Bool) : List Condition → Bool
  | [] => true
  | c :: rest => isTrue truth c && allTrue truth rest

def anyTrue (truth : Leaf → Bool) : List Condition → Bool
  | [] => false
  | c :: rest => isTrue truth c || anyTrue truth rest

end

mutual

/-- The comparisons that are looked at, in their order. What follows in a row is looked at only
while the row is undecided. -/
def reached (truth : Leaf → Bool) : Condition → List Leaf
  | compare op variable_ operand => [⟨op, variable_, operand⟩]
  | all conditions => reachedAll truth conditions
  | any conditions => reachedAny truth conditions
  | not condition => reached truth condition

def reachedAll (truth : Leaf → Bool) : List Condition → List Leaf
  | [] => []
  | c :: rest => reached truth c ++ if isTrue truth c then reachedAll truth rest else []

def reachedAny (truth : Leaf → Bool) : List Condition → List Leaf
  | [] => []
  | c :: rest => reached truth c ++ if isTrue truth c then [] else reachedAny truth rest

end

theorem holds_compare {truth : Leaf → Bool} (hdoc : doc.IsProper) (htruth : Leaf.Values doc truth)
    {l : Leaf} (hfits : l.op.Fits l.operand) (hpath : l.variable_.IsPath) :
    (compare l.op l.variable_ l.operand).holds doc = Leaf.outcome doc [l] (truth l) := by
  obtain ⟨tokens, htokens⟩ := hpath
  have hfound : l.found? doc = doc.value.getAt tokens := by
    simp only [Leaf.found?, htokens, Except.toOption, Option.bind_some]
  cases hget : doc.value.getAt tokens with
  | some actual =>
    have hmisses : l.misses doc = false := by simp [Leaf.misses, hfound, hget]
    have hactual : actual.IsProper := Value.IsProper.getAt hdoc hget
    rw [holds_compare_of_found htokens hget, Comparison.matches?_eq_agrees hactual hfits,
      htruth.outcome hmisses, Leaf.agrees, hfound, hget]
  | none =>
    have habsent : (compare l.op l.variable_ l.operand).holds doc = l.op.absent l.path l.operand := by
      simp only [holds, compareIn, htokens, hget]
      rfl
    rw [habsent]
    by_cases hop : l.op = .isPresent
    · have hmisses : l.misses doc = false := by simp [Leaf.misses, hop]
      rw [hop] at hfits
      obtain ⟨wanted, hwanted⟩ := hfits
      rw [htruth.outcome hmisses, Leaf.agrees, hfound, hget, hop, hwanted]
      cases wanted <;> rfl
    · have hmisses : l.misses doc = true := by simp [Leaf.misses, hfound, hget, hop]
      rw [Leaf.outcome_of_misses hmisses]
      exact Comparison.absent_of_ne hop l.path l.operand

mutual

/-- A condition comes to its truth value, unless something is missing that has to be looked at. -/
theorem holds_eq_outcome {truth : Leaf → Bool} (hdoc : doc.IsProper) (htruth : Leaf.Values doc truth) :
    (c : Condition) → c.WellFormed →
      c.holds doc = Leaf.outcome doc (c.reached truth) (c.isTrue truth)
  | compare op variable_ operand, h => by
    obtain ⟨hfits, hpath⟩ := wellFormed_compare_iff.1 h
    exact @holds_compare doc truth hdoc htruth ⟨op, variable_, operand⟩ hfits hpath
  | all conditions, h => by
    rw [holds, reached, isTrue]
    exact holdsAll_eq_outcome hdoc htruth conditions (wellFormed_all_iff.1 h).2
  | any conditions, h => by
    rw [holds, reached, isTrue]
    exact holdsAny_eq_outcome hdoc htruth conditions (wellFormed_any_iff.1 h).2
  | not condition, h => by
    rw [holds, holds_eq_outcome hdoc htruth condition (wellFormed_not_iff.1 h), Leaf.outcome_map,
      reached, isTrue]

theorem holdsAll_eq_outcome {truth : Leaf → Bool} (hdoc : doc.IsProper)
    (htruth : Leaf.Values doc truth) : (conditions : List Condition) →
    (∀ c ∈ conditions, c.WellFormed) →
      holdsAll doc conditions =
        Leaf.outcome doc (reachedAll truth conditions) (allTrue truth conditions)
  | [], _ => rfl
  | c :: rest, h => by
    obtain ⟨hc, hrest⟩ := List.forall_mem_cons.1 h
    have hfirst := holds_eq_outcome hdoc htruth c hc
    have hmore := holdsAll_eq_outcome hdoc htruth rest hrest
    rw [holdsAll, hfirst, reachedAll, allTrue, Leaf.outcome_append, Leaf.outcome]
    cases (c.reached truth).find? (Leaf.misses doc) with
    | some l => rfl
    | none =>
      cases c.isTrue truth with
      | true => exact hmore
      | false => rfl

theorem holdsAny_eq_outcome {truth : Leaf → Bool} (hdoc : doc.IsProper)
    (htruth : Leaf.Values doc truth) : (conditions : List Condition) →
    (∀ c ∈ conditions, c.WellFormed) →
      holdsAny doc conditions =
        Leaf.outcome doc (reachedAny truth conditions) (anyTrue truth conditions)
  | [], _ => rfl
  | c :: rest, h => by
    obtain ⟨hc, hrest⟩ := List.forall_mem_cons.1 h
    have hfirst := holds_eq_outcome hdoc htruth c hc
    have hmore := holdsAny_eq_outcome hdoc htruth rest hrest
    rw [holdsAny, hfirst, reachedAny, anyTrue, Leaf.outcome_append, Leaf.outcome]
    cases (c.reached truth).find? (Leaf.misses doc) with
    | some l => rfl
    | none =>
      cases c.isTrue truth with
      | true => rfl
      | false => exact hmore

end

theorem holdsAny_map_not (doc : Document) (conditions : List Condition) :
    holdsAny doc (conditions.map not) = (holdsAll doc conditions).map (!·) := by
  induction conditions with
  | nil => rfl
  | cons c rest ih =>
    rw [List.map_cons, holdsAny, holds, holdsAll, ih]
    rcases c.holds doc with e | (_ | _) <;> rfl

theorem holdsAll_map_not (doc : Document) (conditions : List Condition) :
    holdsAll doc (conditions.map not) = (holdsAny doc conditions).map (!·) := by
  induction conditions with
  | nil => rfl
  | cons c rest ih =>
    rw [List.map_cons, holdsAll, holds, holdsAny, ih]
    rcases c.holds doc with e | (_ | _) <;> rfl

theorem holdsAll_append (doc : Document) (conditions more : List Condition) :
    holdsAll doc (conditions ++ more) =
      match holdsAll doc conditions with
      | .ok true => holdsAll doc more
      | r => r := by
  induction conditions with
  | nil => rfl
  | cons c rest ih =>
    rw [List.cons_append, holdsAll, holdsAll, ih]
    rcases c.holds doc with e | (_ | _) <;> rfl

theorem holdsAny_append (doc : Document) (conditions more : List Condition) :
    holdsAny doc (conditions ++ more) =
      match holdsAny doc conditions with
      | .ok false => holdsAny doc more
      | r => r := by
  induction conditions with
  | nil => rfl
  | cons c rest ih =>
    rw [List.cons_append, holdsAny, holdsAny, ih]
    rcases c.holds doc with e | (_ | _) <;> rfl

/-- A row in a row of its own kind may be taken apart. -/
theorem holds_all_append (doc : Document) (before inner after : List Condition) :
    (all (before ++ all inner :: after)).holds doc = (all (before ++ (inner ++ after))).holds doc := by
  rw [holds, holds, holdsAll_append, holdsAll_append, holdsAll_append]
  rfl

theorem holds_any_append (doc : Document) (before inner after : List Condition) :
    (any (before ++ any inner :: after)).holds doc = (any (before ++ (inner ++ after))).holds doc := by
  rw [holds, holds, holdsAny_append, holdsAny_append, holdsAny_append]
  rfl

/-- The conditions that have to hold together for a condition to hold. -/
def conjuncts : Condition → List Condition
  | all conditions => conditions
  | c => [c]

def disjuncts : Condition → List Condition
  | any conditions => conditions
  | c => [c]

theorem holdsAll_conjuncts (doc : Document) (c : Condition) :
    holdsAll doc c.conjuncts = c.holds doc := by
  cases c with
  | all conditions => rw [conjuncts, holds]
  | _ =>
    simp only [conjuncts, holdsAll]
    split <;> simp_all

theorem holdsAny_disjuncts (doc : Document) (c : Condition) :
    holdsAny doc c.disjuncts = c.holds doc := by
  cases c with
  | any conditions => rw [disjuncts, holds]
  | _ =>
    simp only [disjuncts, holdsAny]
    split <;> simp_all

mutual

/-- The condition without rows that stand in a row of their own kind. -/
def flatten : Condition → Condition
  | compare op variable_ operand => compare op variable_ operand
  | all conditions => all (flattenAll conditions)
  | any conditions => any (flattenAny conditions)
  | not condition => not (flatten condition)

def flattenAll : List Condition → List Condition
  | [] => []
  | c :: rest => (flatten c).conjuncts ++ flattenAll rest

def flattenAny : List Condition → List Condition
  | [] => []
  | c :: rest => (flatten c).disjuncts ++ flattenAny rest

end

/-- No row stands in a row of its own kind. -/
inductive IsFlat : Condition → Prop
  | compare {op : Comparison} {variable_ operand : Value} : IsFlat (compare op variable_ operand)
  | all {conditions : List Condition} (each : ∀ c ∈ conditions, IsFlat c)
      (other : ∀ c ∈ conditions, ∀ inner, c ≠ all inner) : IsFlat (all conditions)
  | any {conditions : List Condition} (each : ∀ c ∈ conditions, IsFlat c)
      (other : ∀ c ∈ conditions, ∀ inner, c ≠ any inner) : IsFlat (any conditions)
  | not {condition : Condition} (inner : IsFlat condition) : IsFlat (not condition)

theorem IsFlat.conjuncts {c : Condition} (h : c.IsFlat) :
    ∀ c' ∈ c.conjuncts, IsFlat c' ∧ ∀ inner, c' ≠ Condition.all inner := by
  cases h with
  | all each other => exact fun c hc => ⟨each c hc, other c hc⟩
  | compare => simpa [Condition.conjuncts] using .compare
  | any each other => simpa [Condition.conjuncts] using .any each other
  | not inner => simpa [Condition.conjuncts] using .not inner

theorem IsFlat.disjuncts {c : Condition} (h : c.IsFlat) :
    ∀ c' ∈ c.disjuncts, IsFlat c' ∧ ∀ inner, c' ≠ Condition.any inner := by
  cases h with
  | any each other => exact fun c hc => ⟨each c hc, other c hc⟩
  | compare => simpa [Condition.disjuncts] using .compare
  | all each other => simpa [Condition.disjuncts] using .all each other
  | not inner => simpa [Condition.disjuncts] using .not inner

mutual

theorem isFlat_flatten : (c : Condition) → c.flatten.IsFlat
  | compare op variable_ operand => by
    rw [flatten]
    exact .compare
  | all conditions => by
    rw [flatten]
    have hrow := isFlat_flattenAll conditions
    exact .all (fun c hc => (hrow c hc).1) fun c hc => (hrow c hc).2
  | any conditions => by
    rw [flatten]
    have hrow := isFlat_flattenAny conditions
    exact .any (fun c hc => (hrow c hc).1) fun c hc => (hrow c hc).2
  | not condition => by
    rw [flatten]
    exact .not (isFlat_flatten condition)

theorem isFlat_flattenAll : (conditions : List Condition) →
    ∀ c ∈ flattenAll conditions, c.IsFlat ∧ ∀ inner, c ≠ all inner
  | [] => by simp [flattenAll]
  | c :: rest => by
    rw [flattenAll, List.forall_mem_append]
    exact ⟨(isFlat_flatten c).conjuncts, isFlat_flattenAll rest⟩

theorem isFlat_flattenAny : (conditions : List Condition) →
    ∀ c ∈ flattenAny conditions, c.IsFlat ∧ ∀ inner, c ≠ any inner
  | [] => by simp [flattenAny]
  | c :: rest => by
    rw [flattenAny, List.forall_mem_append]
    exact ⟨(isFlat_flatten c).disjuncts, isFlat_flattenAny rest⟩

end

mutual

theorem holds_flatten (doc : Document) : (c : Condition) → c.flatten.holds doc = c.holds doc
  | compare op variable_ operand => by rw [flatten]
  | all conditions => by rw [flatten, holds, holds, holdsAll_flattenAll doc conditions]
  | any conditions => by rw [flatten, holds, holds, holdsAny_flattenAny doc conditions]
  | not condition => by rw [flatten, holds, holds, holds_flatten doc condition]

theorem holdsAll_flattenAll (doc : Document) : (conditions : List Condition) →
    holdsAll doc (flattenAll conditions) = holdsAll doc conditions
  | [] => by rw [flattenAll]
  | c :: rest => by
    rw [flattenAll, holdsAll_append, holdsAll_conjuncts, holds_flatten doc c,
      holdsAll_flattenAll doc rest]
    rfl

theorem holdsAny_flattenAny (doc : Document) : (conditions : List Condition) →
    holdsAny doc (flattenAny conditions) = holdsAny doc conditions
  | [] => by rw [flattenAny]
  | c :: rest => by
    rw [flattenAny, holdsAny_append, holdsAny_disjuncts, holds_flatten doc c,
      holdsAny_flattenAny doc rest]
    rfl

end

/-- What is looked at in a row of comparisons are some of them. -/
theorem variable_of_mem_reachedAll {truth : Leaf → Bool} {variable_ : Value}
    {conditions : List Condition}
    (h : ∀ c ∈ conditions, ∃ op operand, c = compare op variable_ operand) :
    ∀ l ∈ reachedAll truth conditions, l.variable_ = variable_ := by
  induction conditions with
  | nil => simp [reachedAll]
  | cons c rest ih =>
    obtain ⟨⟨op, operand, hc⟩, hrest⟩ := List.forall_mem_cons.1 h
    intro l hl
    rw [reachedAll, hc, reached, List.singleton_append, List.mem_cons] at hl
    rcases hl with hfirst | hmore
    · rw [hfirst]
    · split at hmore
      · exact ih hrest l hmore
      · cases hmore

/-- Behind the question whether something is there, no question about it raises. -/
theorem exists_holds_of_guarded (hdoc : doc.IsProper) {variable_ : Value} {conditions : List Condition}
    (hformed : (all (compare .isPresent variable_ (.bool true) :: conditions)).WellFormed)
    (hcompare : ∀ c ∈ conditions, ∃ op operand, c = compare op variable_ operand) :
    ∃ b, (all (compare .isPresent variable_ (.bool true) :: conditions)).holds doc = .ok b := by
  let guard : Leaf := ⟨.isPresent, variable_, .bool true⟩
  have hvalues : Leaf.Values doc (Leaf.agrees doc) := fun l _ => rfl
  rw [holds_eq_outcome hdoc hvalues _ hformed]
  refine ⟨_, Leaf.outcome_of_forall (fun l hl => ?_) _⟩
  rw [reached, reachedAll, reached, List.singleton_append, List.mem_cons] at hl
  rcases hl with hfirst | hmore
  · rw [hfirst]
    simp [Leaf.misses]
  · split at hmore
    · rename_i htrue
      -- The guard is true, so that what follows is about something that is there.
      have hpresent : (guard.found? doc).isSome = true := of_decide_eq_true htrue
      obtain ⟨found, hsome⟩ := Option.isSome_iff_exists.1 hpresent
      have hvariable := variable_of_mem_reachedAll hcompare l hmore
      have hfound : l.found? doc = guard.found? doc := by simp only [Leaf.found?, hvariable, guard]
      rw [Leaf.misses, hfound, hsome, Option.isNone_some, Bool.and_false]
    · cases hmore

end Condition

namespace Chain

variable {doc : Document} {default : Value} {rules : List Rule}

/-- Rules that do not hold are passed over. -/
theorem choose_append {before : List Rule} (h : ∀ b ∈ before, b.condition.holds doc = .ok false) :
    choose doc default (before ++ rules) = choose doc default rules := by
  induction before with
  | nil => rfl
  | cons b rest ih =>
    obtain ⟨hb, hrest⟩ := List.forall_mem_cons.1 h
    rw [List.cons_append, choose, hb]
    exact ih hrest

theorem choose_of_forall (h : ∀ r ∈ rules, r.condition.holds doc = .ok false) :
    choose doc default rules = .ok default := by
  have hall := @choose_append doc default [] rules h
  rw [List.append_nil] at hall
  exact hall

/-- No rule holds, or there is a first one of which that is not so. -/
theorem exists_first (doc : Document) (rules : List Rule) :
    (∀ r ∈ rules, r.condition.holds doc = .ok false) ∨
      ∃ before r after, rules = before ++ r :: after ∧
        (∀ b ∈ before, b.condition.holds doc = .ok false) ∧ r.condition.holds doc ≠ .ok false := by
  induction rules with
  | nil => exact .inl (by simp)
  | cons r rest ih =>
    by_cases hr : r.condition.holds doc = .ok false
    · rcases ih with hall | ⟨before, first, after, hrest, hbefore, hfirst⟩
      · exact .inl (List.forall_mem_cons.2 ⟨hr, hall⟩)
      · refine .inr ⟨r :: before, first, after, ?_, List.forall_mem_cons.2 ⟨hr, hbefore⟩, hfirst⟩
        rw [hrest, List.cons_append]
    · exact .inr ⟨[], r, rest, rfl, by simp, hr⟩

/-- The successor is that of the first rule that holds, or the default if none does. -/
theorem choose_eq_ok_iff {target : Value} :
    choose doc default rules = .ok target ↔
      (∃ before r after, rules = before ++ r :: after ∧
        (∀ b ∈ before, b.condition.holds doc = .ok false) ∧
        r.condition.holds doc = .ok true ∧ target = r.next) ∨
      ((∀ r ∈ rules, r.condition.holds doc = .ok false) ∧ target = default) := by
  constructor
  · intro h
    rcases exists_first doc rules with hall | ⟨before, r, after, hrules, hbefore, hr⟩
    · rw [choose_of_forall hall] at h
      exact .inr ⟨hall, (Except.ok.inj h).symm⟩
    · rw [hrules, choose_append hbefore, choose] at h
      split at h
      · cases h
      · rename_i htrue
        exact .inl ⟨before, r, after, hrules, hbefore, htrue, (Except.ok.inj h).symm⟩
      · contradiction
  · intro h
    rcases h with ⟨before, r, after, hrules, hbefore, htrue, htarget⟩ | ⟨hall, htarget⟩
    · rw [hrules, choose_append hbefore, choose, htrue, htarget]
    · rw [choose_of_forall hall, htarget]

/-- A rule raises if all before it do not hold. -/
theorem choose_eq_error_iff {f : Failure} :
    choose doc default rules = .error f ↔
      ∃ before r after e, rules = before ++ r :: after ∧
        (∀ b ∈ before, b.condition.holds doc = .ok false) ∧
        r.condition.holds doc = .error e ∧ f = .ofConditionError e := by
  constructor
  · intro h
    rcases exists_first doc rules with hall | ⟨before, r, after, hrules, hbefore, hr⟩
    · rw [choose_of_forall hall] at h
      cases h
    · rw [hrules, choose_append hbefore, choose] at h
      split at h
      · rename_i e he
        exact ⟨before, r, after, e, hrules, hbefore, he, (Except.error.inj h).symm⟩
      · cases h
      · contradiction
  · intro h
    obtain ⟨before, r, after, e, hrules, hbefore, he, hf⟩ := h
    rw [hrules, choose_append hbefore, choose, he, hf]

end Chain

namespace Condition

variable {doc : Document}

/-- Conditions are evaluated from left to right and no further than needed. In whatever way the
comparisons that ask for what is not there are valued, a condition raises for the first of them that
is reached, and comes to its truth value if none is. So a condition may be negated by negating what
it is made of, rows in rows of their own kind may be taken apart, one or all of them, and what is
asked of a value behind the question whether it is there never raises. A choice goes to the
successor of the first rule that holds, raises if a rule raises before that, and takes the default
only if no rule holds. -/
theorem evaluates_in_order (hdoc : doc.IsProper) :
    (∀ truth, Leaf.Values doc truth → ∀ (c : Condition) (state : String), c.check state = .ok () →
      c.holds doc =
        match (c.reached truth).find? (Leaf.misses doc) with
        | some l => .error (.notFound l.path)
        | none => .ok (c.isTrue truth)) ∧
    (∀ conditions,
      (not (all conditions)).holds doc = (any (conditions.map not)).holds doc ∧
      (not (any conditions)).holds doc = (all (conditions.map not)).holds doc) ∧
    (∀ before inner after,
      (all (before ++ all inner :: after)).holds doc = (all (before ++ (inner ++ after))).holds doc ∧
      (any (before ++ any inner :: after)).holds doc = (any (before ++ (inner ++ after))).holds doc) ∧
    (∀ c : Condition, c.flatten.IsFlat ∧ c.flatten.holds doc = c.holds doc) ∧
    (∀ variable_ conditions (state : String),
      (all (compare .isPresent variable_ (.bool true) :: conditions)).check state = .ok () →
      (∀ c ∈ conditions, ∃ op operand, c = compare op variable_ operand) →
      ∃ b, (all (compare .isPresent variable_ (.bool true) :: conditions)).holds doc = .ok b) ∧
    (∀ default rules target, Chain.choose doc default rules = .ok target ↔
      (∃ before r after, rules = before ++ r :: after ∧
        (∀ b ∈ before, b.condition.holds doc = .ok false) ∧
        r.condition.holds doc = .ok true ∧ target = r.next) ∨
      ((∀ r ∈ rules, r.condition.holds doc = .ok false) ∧ target = default)) ∧
    (∀ default rules f, Chain.choose doc default rules = .error f ↔
      ∃ before r after e, rules = before ++ r :: after ∧
        (∀ b ∈ before, b.condition.holds doc = .ok false) ∧
        r.condition.holds doc = .error e ∧ f = .ofConditionError e) := by
  refine ⟨?_, ?_, ?_, ?_, ?_, ?_, ?_⟩
  · intro truth htruth c state hcheck
    exact holds_eq_outcome hdoc htruth c ((check_eq_ok_iff state c).1 hcheck)
  · intro conditions
    constructor
    · rw [holds, holds, holds, holdsAny_map_not]
    · rw [holds, holds, holds, holdsAll_map_not]
  · intro before inner after
    exact ⟨holds_all_append doc before inner after, holds_any_append doc before inner after⟩
  · intro c
    exact ⟨isFlat_flatten c, holds_flatten doc c⟩
  · intro variable_ conditions state hcheck hcompare
    exact exists_holds_of_guarded hdoc ((check_eq_ok_iff state _).1 hcheck) hcompare
  · intro default rules target
    exact Chain.choose_eq_ok_iff
  · intro default rules f
    exact Chain.choose_eq_error_iff

def moodless : Document := ⟨.obj [("count", .int 3)]⟩

/-- The mood is asked for only if the count is small. -/
def moody : Condition :=
  all [any [compare .numericLessThan (.str "$.count") (.int 5),
      compare .stringEquals (.str "$.name") (.str "")],
    not (compare .stringEquals (.str "$.mood") (.str "gloomy"))]

/-- The name is missing too, but it is not looked at; the mood is, and raises. -/
theorem evaluates_in_order_moody :
    moodless.IsProper ∧ moody.check "Route" = .ok () ∧
      moody.holds moodless = .error (.notFound "$.mood") := by
  have hdoc : moodless.IsProper := .obj (by simp [Members.keys]) (by simpa using .int 3)
  have hcheck : moody.check "Route" = .ok () := eq_ok_of_isSome (by decide +kernel)
  have hmissing : ((moody.reached (Leaf.agrees moodless)).find? (Leaf.misses moodless)).map Leaf.path =
      some "$.mood" := by decide +kernel
  obtain ⟨hholds, -⟩ := evaluates_in_order hdoc
  obtain ⟨l, hl, hpath⟩ := Option.map_eq_some_iff.1 hmissing
  refine ⟨hdoc, hcheck, ?_⟩
  rw [hholds (Leaf.agrees moodless) (fun l _ => rfl) moody "Route" hcheck, hl, ← hpath]

end Condition

end ReminderFlow
