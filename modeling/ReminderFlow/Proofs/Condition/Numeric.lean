import Mathlib.Algebra.Order.Field.Rat
import ReminderFlow.Condition
import ReminderFlow.Proofs.Machine.WellFormed
import ReminderFlow.Proofs.Number.Rational

namespace ReminderFlow

namespace Value

/-- Operands that are accepted have an exact value. -/
theorem exists_rational_of_isFiniteNumber {v : Value} (h : v.IsFiniteNumber) :
    ∃ x, v.rational? = some x := by
  cases v with
  | int n => exact ⟨n, rfl⟩
  | float d => exact Number.exists_toRat_of_isFinite h
  | _ => exact h.elim

theorem quantity?_of_number? {v : Value} {a : Number} (h : v.number? = some a) :
    v.quantity? = some a := by
  cases v with
  | bool b => cases h
  | _ => exact h

end Value

namespace Comparison

/-- The comparisons of numbers. -/
def numeric : List Comparison := [numericLessThan, numericEquals, numericGreaterThan]

/-- The relation between exact values that a comparison of numbers asks for. -/
def relates : Comparison → ℚ → ℚ → Bool
  | numericLessThan, x, y => x < y
  | numericEquals, x, y => x = y
  | numericGreaterThan, x, y => y < x
  | _, _, _ => false

variable {op : Comparison} {actual operand : Value}

theorem matches?_of_rational (hop : op ∈ numeric) {x y : ℚ} (hactual : actual.rational? = some x)
    (hoperand : operand.rational? = some y) : op.matches? actual operand = .ok (op.relates x y) := by
  obtain ⟨a, ha, hx⟩ := Value.rational?_eq_some_iff.1 hactual
  obtain ⟨b, hb, hy⟩ := Value.rational?_eq_some_iff.1 hoperand
  have hb' := Value.quantity?_of_number? hb
  cases op with
  | numericLessThan =>
    simp only [matches?, ordered, ha, hb', relates, Number.lt_eq_decide hx hy]
  | numericEquals => simp only [matches?, ha, hb', relates, Number.same_eq_decide hx hy]
  | numericGreaterThan =>
    simp only [matches?, ordered, ha, hb', relates, Number.lt_eq_decide hy hx]
  | _ => simp [numeric] at hop

theorem matches?_of_not_number (hop : op ∈ numeric) (h : actual.number? = none) :
    op.matches? actual operand = .ok false := by
  cases op with
  | numericLessThan => simp only [matches?, ordered, h]
  | numericEquals => simp only [matches?, h]
  | numericGreaterThan => simp only [matches?, ordered, h]
  | _ => simp [numeric] at hop

theorem exists_rational_of_fits (hop : op ∈ numeric) (h : op.Fits operand) :
    ∃ y, operand.rational? = some y := by
  cases op with
  | numericLessThan => exact Value.exists_rational_of_isFiniteNumber h
  | numericEquals => exact Value.exists_rational_of_isFiniteNumber h
  | numericGreaterThan => exact Value.exists_rational_of_isFiniteNumber h
  | _ => simp [numeric] at hop

/-- Of any two numbers exactly one of the relations holds. -/
theorem existsUnique_relates (x y : ℚ) : ∃! op, op ∈ numeric ∧ op.relates x y = true := by
  have hall : ∀ op ∈ numeric, op = numericLessThan ∨ op = numericEquals ∨ op = numericGreaterThan := by
    simp [numeric]
  rcases lt_trichotomy x y with hlt | heq | hgt
  · refine ⟨numericLessThan, ⟨by simp [numeric], decide_eq_true hlt⟩, fun op hop => ?_⟩
    rcases hall op hop.1 with rfl | rfl | rfl
    · rfl
    · exact absurd (of_decide_eq_true hop.2) hlt.ne
    · exact absurd (of_decide_eq_true hop.2) hlt.not_gt
  · refine ⟨numericEquals, ⟨by simp [numeric], decide_eq_true heq⟩, fun op hop => ?_⟩
    rcases hall op hop.1 with rfl | rfl | rfl
    · exact absurd heq (of_decide_eq_true hop.2 : x < y).ne
    · rfl
    · exact absurd heq.symm (of_decide_eq_true hop.2 : y < x).ne
  · refine ⟨numericGreaterThan, ⟨by simp [numeric], decide_eq_true hgt⟩, fun op hop => ?_⟩
    rcases hall op hop.1 with rfl | rfl | rfl
    · exact absurd (of_decide_eq_true hop.2) hgt.not_gt
    · exact absurd (of_decide_eq_true hop.2) hgt.ne'
    · rfl

end Comparison

namespace Condition

variable {doc : Document} {path : List Token}

theorem holds_compare_of_found {variable_ : Value} (hpath : Path.parseValue variable_ = .ok path)
    {actual : Value} (hfound : doc.value.getAt path = some actual) (op : Comparison)
    (operand : Value) : (compare op variable_ operand).holds doc = op.matches? actual operand := by
  simp only [holds, compareIn, hpath, hfound]

/-- Where a path leads to a number and the operand is accepted, the three comparisons of numbers are
decided by the exact values of the two, and exactly one of them is true. So a number that is less
than an operand is less than every greater one, and one that is greater than an operand is greater
than every smaller one. Where the path leads to what is no number, none of them is true and none
raises. -/
theorem routes_exactly {text : String} (hpath : Path.parse text = .ok path) {actual : Value}
    (hfound : doc.value.getAt path = some actual) :
    (∀ x, actual.rational? = some x → ∀ state op operand, op ∈ Comparison.numeric →
      (compare op (.str text) operand).check state = .ok () →
      ∃ y, operand.rational? = some y ∧
        (compare .numericLessThan (.str text) operand).holds doc = .ok (decide (x < y)) ∧
        (compare .numericEquals (.str text) operand).holds doc = .ok (decide (x = y)) ∧
        (compare .numericGreaterThan (.str text) operand).holds doc = .ok (decide (y < x)) ∧
        ∃! op', op' ∈ Comparison.numeric ∧
          (compare op' (.str text) operand).holds doc = .ok true) ∧
    (∀ x operand y other z, actual.rational? = some x → operand.rational? = some y →
      other.rational? = some z → y ≤ z →
      ((compare .numericLessThan (.str text) operand).holds doc = .ok true →
        (compare .numericLessThan (.str text) other).holds doc = .ok true) ∧
      ((compare .numericGreaterThan (.str text) other).holds doc = .ok true →
        (compare .numericGreaterThan (.str text) operand).holds doc = .ok true)) ∧
    (actual.number? = none → ∀ op ∈ Comparison.numeric, ∀ operand,
      (compare op (.str text) operand).holds doc = .ok false) := by
  have hread : Path.parseValue (.str text) = .ok path := hpath
  have hholds : ∀ op ∈ Comparison.numeric, ∀ x operand y, actual.rational? = some x →
      operand.rational? = some y →
      (compare op (.str text) operand).holds doc = .ok (op.relates x y) := by
    intro op hop x operand y hx hy
    rw [holds_compare_of_found hread hfound, Comparison.matches?_of_rational hop hx hy]
  have hless : Comparison.numericLessThan ∈ Comparison.numeric := by decide
  have hequals : Comparison.numericEquals ∈ Comparison.numeric := by decide
  have hgreater : Comparison.numericGreaterThan ∈ Comparison.numeric := by decide
  refine ⟨?_, ?_, ?_⟩
  · intro x hx state op operand hop hcheck
    have hfits := (wellFormed_compare_iff.1 ((check_eq_ok_iff state _).1 hcheck)).1
    obtain ⟨y, hy⟩ := Comparison.exists_rational_of_fits hop hfits
    refine ⟨y, hy, hholds _ hless x operand y hx hy, hholds _ hequals x operand y hx hy,
      hholds _ hgreater x operand y hx hy, ?_⟩
    obtain ⟨one, ⟨hone, hrelates⟩, hunique⟩ := Comparison.existsUnique_relates x y
    refine ⟨one, ⟨hone, by rw [hholds one hone x operand y hx hy, hrelates]⟩, fun op' hop' => ?_⟩
    have htrue := hop'.2
    rw [hholds op' hop'.1 x operand y hx hy] at htrue
    exact hunique op' ⟨hop'.1, Except.ok.inj htrue⟩
  · intro x operand y other z hx hy hz hle
    rw [hholds _ hless x operand y hx hy, hholds _ hless x other z hx hz,
      hholds _ hgreater x operand y hx hy, hholds _ hgreater x other z hx hz]
    simp only [Comparison.relates, Except.ok.injEq, decide_eq_true_eq]
    exact ⟨fun hlt => hlt.trans_le hle, fun hlt => hle.trans_lt hlt⟩
  · intro hnumber op hop operand
    rw [holds_compare_of_found hread hfound, Comparison.matches?_of_not_number hop hnumber]

/-- A whole number that is no double: there is none between 2 ^ 53 and the next even number. -/
def unrounded : Document := ⟨.obj [("n", .int (2 ^ 53 + 1))]⟩

/-- A number that would be rounded to the operand is greater than it, and not equal. -/
theorem routes_exactly_unrounded :
    Path.parse "$.n" = .ok [.name "n"] ∧
      unrounded.value.getAt [.name "n"] = some (.int (2 ^ 53 + 1)) ∧
      (compare .numericGreaterThan (.str "$.n") (.float (Double.ofInt (2 ^ 53)))).holds unrounded =
        .ok true ∧
      (compare .numericEquals (.str "$.n") (.float (Double.ofInt (2 ^ 53)))).holds unrounded ≠
        .ok true := by
  have hpath : Path.parse "$.n" = .ok [.name "n"] := eq_ok_of_toOption (by decide +kernel)
  have hcheck : (compare .numericEquals (.str "$.n") (.float (Double.ofInt (2 ^ 53)))).check "Route" =
      .ok () := eq_ok_of_isSome (by decide +kernel)
  have hgreater : (compare .numericGreaterThan (.str "$.n") (.float (Double.ofInt (2 ^ 53)))).holds
      unrounded = .ok true := eq_ok_of_toOption (by decide +kernel)
  obtain ⟨hroutes, -, -⟩ :=
    @routes_exactly unrounded [.name "n"] "$.n" hpath (.int (2 ^ 53 + 1)) rfl
  obtain ⟨y, -, -, -, -, hone⟩ := hroutes _ rfl "Route" .numericEquals _ (by decide) hcheck
  refine ⟨hpath, rfl, hgreater, fun hequal => ?_⟩
  have hsame := hone.unique ⟨by decide, hgreater⟩ ⟨by decide, hequal⟩
  cases hsame

end Condition

end ReminderFlow
