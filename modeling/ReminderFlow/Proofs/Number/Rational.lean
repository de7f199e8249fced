import Mathlib.Algebra.Order.Field.Basic
import Mathlib.Data.Rat.Cast.Order
import Mathlib.Tactic.Common
import ReminderFlow.Json.Equality

namespace ReminderFlow

namespace Number

/-- The exact value of a finite number. -/
def toRat? : Number → Option ℚ
  | whole n => some n
  | double (.finite negative rank) =>
    some ((Double.finite negative rank).scaled / (twoTo Double.unitExponent : ℕ))
  | double _ => none

theorem cast_twoTo_pos (n : Nat) : (0 : ℚ) < (twoTo n : ℕ) := by
  exact_mod_cast Nat.two_pow_pos n

/-- The place on the scale is the exact value, counted in units. -/
theorem exists_units {a : Number} {x : ℚ} (h : a.toRat? = some x) :
    ∃ units : Int, a.place? = some (.at_ units) ∧
      x * (twoTo Double.unitExponent : ℕ) = (units : ℚ) := by
  have hunit := (cast_twoTo_pos Double.unitExponent).ne'
  cases a with
  | whole n =>
    cases h
    refine ⟨_, rfl, ?_⟩
    rw [Int.cast_mul, Int.cast_natCast]
  | double d =>
    cases d with
    | finite negative rank =>
      cases h
      exact ⟨_, rfl, div_mul_cancel₀ _ hunit⟩
    | _ => cases h

/-- The order of numbers is that of their exact values. -/
theorem lt_eq_decide {a b : Number} {x y : ℚ} (ha : a.toRat? = some x) (hb : b.toRat? = some y) :
    a.lt b = decide (x < y) := by
  obtain ⟨m, hm, hx⟩ := exists_units ha
  obtain ⟨n, hn, hy⟩ := exists_units hb
  have hiff : x < y ↔ m < n := by
    rw [← mul_lt_mul_iff_left₀ (cast_twoTo_pos Double.unitExponent), hx, hy, Int.cast_lt]
  simp only [lt, hm, hn, Place.lt, hiff]

theorem same_eq_decide {a b : Number} {x y : ℚ} (ha : a.toRat? = some x) (hb : b.toRat? = some y) :
    a.same b = decide (x = y) := by
  obtain ⟨m, hm, hx⟩ := exists_units ha
  obtain ⟨n, hn, hy⟩ := exists_units hb
  have hunit := (cast_twoTo_pos Double.unitExponent).ne'
  have hiff : x = y ↔ m = n := by
    rw [← mul_left_inj' hunit, hx, hy, Int.cast_inj]
  simp only [same, hm, hn, hiff, Place.at_.injEq]

theorem exists_toRat_of_isFinite {x : Double} (h : x.isFinite = true) :
    ∃ q, (double x).toRat? = some q := by
  cases x with
  | finite negative rank => exact ⟨_, rfl⟩
  | _ => cases h

end Number

namespace Value

/-- The exact value of a finite number; true and false are none. -/
def rational? (v : Value) : Option ℚ := v.number?.bind Number.toRat?

theorem rational?_eq_some_iff {v : Value} {x : ℚ} :
    v.rational? = some x ↔ ∃ a, v.number? = some a ∧ a.toRat? = some x :=
  Option.bind_eq_some_iff

end Value

end ReminderFlow
