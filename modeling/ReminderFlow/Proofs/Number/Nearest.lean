import Mathlib.Algebra.Order.Field.Basic
import Mathlib.Data.Rat.Cast.Order
import Mathlib.Tactic.Common
import Mathlib.Tactic.Linarith
import Mathlib.Tactic.Ring
import ReminderFlow.Number.Rounding

namespace ReminderFlow

theorem roundHalfEven_eq {n d q : Nat} (hd : 0 < d) (hlow : 2 * (q * d) ≤ 2 * n + d)
    (hhigh : 2 * n ≤ 2 * (q * d) + d)
    (hodd : q % 2 = 1 → 2 * (q * d) ≠ 2 * n + d ∧ 2 * n ≠ 2 * (q * d) + d) :
    roundHalfEven n d = q := by
  have hdiv := Nat.div_add_mod n d
  have hmod := Nat.mod_lt n hd
  have hcases : q = n / d ∨ q = n / d + 1 := by
    by_contra hnot
    rcases Nat.lt_or_ge q (n / d) with hlt | hge
    · have hmul : d * (q + 1) ≤ d * (n / d) := Nat.mul_le_mul_left d hlt
      have hexpand : d * (q + 1) = q * d + d := by ring
      omega
    · have hmul : d * (n / d + 2) ≤ d * q := Nat.mul_le_mul_left d (by omega)
      have hexpand : d * (n / d + 2) = d * (n / d) + 2 * d := by ring
      have hcomm : d * q = q * d := Nat.mul_comm d q
      omega
  unfold roundHalfEven
  rcases hcases with rfl | rfl
  · have hcomm : n / d * d = d * (n / d) := Nat.mul_comm _ _
    rw [hcomm] at hlow hhigh hodd
    dsimp only
    split_ifs with hbelow habove
    · rfl
    · omega
    · have heven : n / d % 2 ≠ 1 := fun h => (hodd h).2 (by omega)
      omega
  · have hexpand : (n / d + 1) * d = d * (n / d) + d := by ring
    rw [hexpand] at hlow hhigh hodd
    dsimp only
    split_ifs with hbelow habove
    · omega
    · rfl
    · have heven : (n / d + 1) % 2 ≠ 1 := fun h => (hodd h).1 (by omega)
      omega

namespace Double

theorem unitsOf_of_le {q : Nat} (h : q ≤ 2 ^ 53) : unitsOf q = q := by
  unfold unitsOf
  split_ifs with hlt
  · rfl
  · have hq : q = 2 ^ 53 := Nat.le_antisymm h (Nat.not_lt.1 hlt)
    subst hq
    decide

/-- From `2 ^ 52` to `2 ^ 53` the units are counted in steps of the same size. -/
theorem unitsOf_steps {s q : Nat} (hlow : 2 ^ 52 ≤ q) (hhigh : q ≤ 2 ^ 53) :
    unitsOf (s * 2 ^ 52 + q) = q * 2 ^ s := by
  unfold unitsOf
  change (if s * 2 ^ 52 + q < 2 ^ 53 then s * 2 ^ 52 + q
    else (2 ^ 52 + (s * 2 ^ 52 + q) % 2 ^ 52) * 2 ^ ((s * 2 ^ 52 + q) / 2 ^ 52 - 1)) = q * 2 ^ s
  split_ifs with hlt
  · have hs : s = 0 := by omega
    subst hs
    omega
  · rcases Nat.lt_or_ge q (2 ^ 53) with hq | hq
    · have hdiv : (s * 2 ^ 52 + q) / 2 ^ 52 - 1 = s := by omega
      have hmod : 2 ^ 52 + (s * 2 ^ 52 + q) % 2 ^ 52 = q := by omega
      rw [hdiv, hmod]
    · have hdiv : (s * 2 ^ 52 + q) / 2 ^ 52 - 1 = s + 1 := by omega
      have hmod : 2 ^ 52 + (s * 2 ^ 52 + q) % 2 ^ 52 = 2 ^ 52 := by omega
      have hq' : q = 2 ^ 52 * 2 := by omega
      rw [hdiv, hmod, hq']
      ring

/-- A rank beyond the first steps, as the number of its step size and a count of steps. -/
theorem exists_steps {rank : Nat} (h : 2 ^ 53 ≤ rank) :
    ∃ s q, rank = (s + 1) * 2 ^ 52 + q ∧ 2 ^ 52 ≤ q ∧ q < 2 ^ 53 :=
  ⟨rank / 2 ^ 52 - 2, 2 ^ 52 + rank % 2 ^ 52, by omega, by omega, by omega⟩

/-- A ratio, in units, lies between the midpoints to the neighbouring magnitudes, or on one of them
if the rank is even. Sizes are doubled so that the midpoints are whole. -/
structure Nearest (rank units den : Nat) : Prop where
  low : (unitsOf (rank - 1) + unitsOf rank) * den ≤ 2 * units
  high : 2 * units ≤ (unitsOf rank + unitsOf (rank + 1)) * den
  odd : rank % 2 = 1 → (unitsOf (rank - 1) + unitsOf rank) * den ≠ 2 * units ∧
    2 * units ≠ (unitsOf rank + unitsOf (rank + 1)) * den

/-- The rank nearest to a ratio in units. -/
def rankOfUnits (units den : Nat) : Nat :=
  let shift := (units / den).log2 - 52
  shift * 2 ^ 52 + roundHalfEven units (den * 2 ^ shift)

theorem nearestRank_eq_rankOfUnits (num den : Nat) :
    nearestRank num den = rankOfUnits (num * twoTo unitExponent) den := rfl

/-- The rank that is found among magnitudes `2 ^ shift` units apart. -/
theorem rankOfUnits_of_shift {units den shift q : Nat} (hshift : (units / den).log2 - 52 = shift)
    (hround : roundHalfEven units (den * 2 ^ shift) = q) :
    rankOfUnits units den = shift * 2 ^ 52 + q := by
  simp only [rankOfUnits, hshift, hround]

theorem log2_of_bounds {n k : Nat} (hlow : 2 ^ k ≤ n) (hhigh : n < 2 ^ (k + 1)) : n.log2 = k := by
  have hne : n ≠ 0 := by
    rintro rfl
    exact absurd hlow (by simp)
  have hle : k ≤ n.log2 := (Nat.le_log2 hne).2 hlow
  have hlt : n.log2 < k + 1 := (Nat.log2_lt hne).2 hhigh
  omega

/-- Where the units are counted one by one. -/
theorem rankOfUnits_of_lt {rank units den : Nat} (hden : 0 < den) (hrank : rank < 2 ^ 53)
    (h : Nearest rank units den) : rankOfUnits units den = rank := by
  obtain ⟨hlow, hhigh, hodd⟩ := h
  have hself : unitsOf rank = rank := unitsOf_of_le hrank.le
  have hprev : unitsOf (rank - 1) = rank - 1 := unitsOf_of_le (by omega)
  have hnext : unitsOf (rank + 1) = rank + 1 := unitsOf_of_le hrank
  rw [hself, hprev, hnext] at hodd
  rw [hself, hprev] at hlow
  rw [hself, hnext] at hhigh
  have hexpand : (rank + (rank + 1)) * den = 2 * (rank * den) + den := by ring
  have hbelow : units / den < 2 ^ 53 := by
    rw [Nat.div_lt_iff_lt_mul hden]
    have hle : (rank + 1) * den ≤ 2 ^ 53 * den := Nat.mul_le_mul_right den hrank
    rw [Nat.add_one_mul] at hle
    omega
  have hshift : (units / den).log2 - 52 = 0 := by
    rcases Nat.eq_zero_or_pos (units / den) with hzero | hpos
    · rw [hzero]
      rfl
    · have hlt := (Nat.log2_lt hpos.ne').2 hbelow
      omega
  have hround : roundHalfEven units (den * 2 ^ 0) = rank := by
    rw [Nat.pow_zero, Nat.mul_one]
    rcases Nat.eq_zero_or_pos rank with rfl | hpos
    · apply roundHalfEven_eq hden <;> omega
    · have hexpand' : (rank - 1 + rank) * den + den = 2 * (rank * den) := by
        obtain ⟨r, rfl⟩ := Nat.exists_eq_add_of_lt hpos
        simp only [Nat.zero_add, Nat.add_sub_cancel]
        ring
      apply roundHalfEven_eq hden <;> omega
  rw [rankOfUnits_of_shift hshift hround]
  omega

/-- Where magnitudes are further apart, and the ratio is not below all that are as far apart. -/
theorem rankOfUnits_of_steps {s q units den : Nat} (hden : 0 < den) (hq : 2 ^ 52 ≤ q)
    (hq' : q < 2 ^ 53) (h : Nearest ((s + 1) * 2 ^ 52 + q) units den)
    (habove : 2 ^ 53 * (den * 2 ^ s) ≤ units) :
    rankOfUnits units den = (s + 1) * 2 ^ 52 + q := by
  obtain ⟨hlow, hhigh, hodd⟩ := h
  have hself : unitsOf ((s + 1) * 2 ^ 52 + q) = q * 2 ^ (s + 1) := unitsOf_steps hq hq'.le
  have hnext : unitsOf ((s + 1) * 2 ^ 52 + q + 1) = (q + 1) * 2 ^ (s + 1) := by
    rw [Nat.add_assoc]
    exact unitsOf_steps (by omega) hq'
  have hstep : 0 < den * 2 ^ s := Nat.mul_pos hden (Nat.two_pow_pos s)
  have hupper : (q * 2 ^ (s + 1) + (q + 1) * 2 ^ (s + 1)) * den =
      4 * (q * (den * 2 ^ s)) + 2 * (den * 2 ^ s) := by ring
  rw [hself, hnext, hupper] at hhigh
  rw [hself, hnext, hupper] at hodd
  have hle : (q + 1) * (den * 2 ^ s) ≤ 2 ^ 53 * (den * 2 ^ s) := Nat.mul_le_mul_right _ hq'
  have hshift : (units / den).log2 - 52 = s + 1 := by
    have hlog : (units / den).log2 = 53 + s := by
      apply log2_of_bounds
      · rw [Nat.le_div_iff_mul_le hden]
        calc 2 ^ (53 + s) * den = 2 ^ 53 * (den * 2 ^ s) := by ring
          _ ≤ units := habove
      · rw [Nat.div_lt_iff_lt_mul hden]
        have hpower : 2 ^ (53 + s + 1) * den = 2 * (2 ^ 53 * (den * 2 ^ s)) := by ring
        rw [Nat.add_one_mul] at hle
        omega
    omega
  have hround : roundHalfEven units (den * 2 ^ (s + 1)) = q := by
    have hdouble : den * 2 ^ (s + 1) = 2 * (den * 2 ^ s) := by ring
    have hmul : q * (2 * (den * 2 ^ s)) = 2 * (q * (den * 2 ^ s)) := by ring
    rw [hdouble]
    rcases Nat.eq_or_lt_of_le hq with rfl | hlt
    · apply roundHalfEven_eq (by omega) <;> omega
    · have hprev : unitsOf ((s + 1) * 2 ^ 52 + q - 1) = (q - 1) * 2 ^ (s + 1) := by
        rw [Nat.add_sub_assoc (by omega)]
        exact unitsOf_steps (by omega) (by omega)
      have hlower : ((q - 1) * 2 ^ (s + 1) + q * 2 ^ (s + 1)) * den + 2 * (den * 2 ^ s) =
          4 * (q * (den * 2 ^ s)) := by
        obtain ⟨r, rfl⟩ := Nat.exists_eq_add_of_lt hlt
        simp only [Nat.add_sub_cancel]
        ring
      rw [hself, hprev] at hlow
      rw [hprev] at hodd
      apply roundHalfEven_eq (by omega) <;> rw [hmul] <;> omega
  rw [rankOfUnits_of_shift hshift hround]

/-- Where the ratio is below all magnitudes as far apart, it rounds to the first of them. -/
theorem rankOfUnits_of_below {s q units den : Nat} (hden : 0 < den) (hq : 2 ^ 52 ≤ q)
    (hq' : q < 2 ^ 53) (h : Nearest ((s + 1) * 2 ^ 52 + q) units den)
    (hbelow : units < 2 ^ 53 * (den * 2 ^ s)) :
    rankOfUnits units den = (s + 1) * 2 ^ 52 + q := by
  have hlow := h.low
  have hself : unitsOf ((s + 1) * 2 ^ 52 + q) = q * 2 ^ (s + 1) := unitsOf_steps hq hq'.le
  have hfirst : q = 2 ^ 52 := by
    by_contra hne
    have hprev : unitsOf ((s + 1) * 2 ^ 52 + q - 1) = (q - 1) * 2 ^ (s + 1) := by
      rw [Nat.add_sub_assoc (by omega)]
      exact unitsOf_steps (by omega) (by omega)
    have hlower : ((q - 1) * 2 ^ (s + 1) + q * 2 ^ (s + 1)) * den =
        2 * ((q - 1 + q) * (den * 2 ^ s)) := by ring
    have hle : 2 ^ 53 * (den * 2 ^ s) ≤ (q - 1 + q) * (den * 2 ^ s) :=
      Nat.mul_le_mul_right _ (by omega)
    rw [hself, hprev, hlower] at hlow
    omega
  subst hfirst
  have hprev : unitsOf ((s + 1) * 2 ^ 52 + 2 ^ 52 - 1) = (2 ^ 53 - 1) * 2 ^ s := by
    rw [show (s + 1) * 2 ^ 52 + 2 ^ 52 - 1 = s * 2 ^ 52 + (2 ^ 53 - 1) by omega]
    exact unitsOf_steps (by omega) (by omega)
  have hlower : ((2 ^ 53 - 1) * 2 ^ s + 2 ^ 52 * 2 ^ (s + 1)) * den =
      (2 ^ 54 - 1) * (den * 2 ^ s) := by
    rw [Nat.pow_succ]
    ring
  rw [hself, hprev, hlower] at hlow
  have hshift : (units / den).log2 - 52 = s := by
    have hlog : (units / den).log2 = 52 + s := by
      apply log2_of_bounds
      · rw [Nat.le_div_iff_mul_le hden]
        have hpower : 2 ^ (52 + s) * den = 2 ^ 52 * (den * 2 ^ s) := by ring
        omega
      · rw [Nat.div_lt_iff_lt_mul hden]
        have hpower : 2 ^ (52 + s + 1) * den = 2 ^ 53 * (den * 2 ^ s) := by ring
        omega
    omega
  have hround : roundHalfEven units (den * 2 ^ s) = 2 ^ 53 := by
    apply roundHalfEven_eq (Nat.mul_pos hden (Nat.two_pow_pos s)) <;> omega
  rw [rankOfUnits_of_shift hshift hround]
  omega

/-- Rounding gives the one magnitude that is nearest. -/
theorem rankOfUnits_eq {rank units den : Nat} (hden : 0 < den) (h : Nearest rank units den) :
    rankOfUnits units den = rank := by
  rcases Nat.lt_or_ge rank (2 ^ 53) with hlt | hge
  · exact rankOfUnits_of_lt hden hlt h
  · obtain ⟨s, q, rfl, hq, hq'⟩ := exists_steps hge
    rcases Nat.lt_or_ge units (2 ^ 53 * (den * 2 ^ s)) with hbelow | habove
    · exact rankOfUnits_of_below hden hq hq' h hbelow
    · exact rankOfUnits_of_steps hden hq hq' h habove

theorem roundHalfEven_le (n d : Nat) : roundHalfEven n d ≤ n / d + 1 := by
  unfold roundHalfEven
  dsimp only
  split_ifs <;> omega

theorem log2_mul_twoTo_lt (n k : Nat) : (n * twoTo k).log2 < n.log2 + 1 + k := by
  rcases Nat.eq_zero_or_pos (n * twoTo k) with hzero | hpos
  · rw [hzero, Nat.log2_zero]
    omega
  · refine (Nat.log2_lt hpos.ne').2 ?_
    rw [Nat.pow_add]
    exact Nat.mul_lt_mul_of_pos_right Nat.lt_log2_self (Nat.two_pow_pos k)

/-- Up to which rank the magnitudes of so many bits are found. -/
theorem rankOfUnits_le {units k : Nat} (h : units.log2 < 52 + k) :
    rankOfUnits units 1 ≤ (k + 2) * 2 ^ 52 := by
  have hquotient : units / 2 ^ (units.log2 - 52) < 2 ^ 53 := by
    rw [Nat.div_lt_iff_lt_mul (Nat.two_pow_pos _), ← Nat.pow_add]
    exact Nat.lt_log2_self.trans_le (Nat.pow_le_pow_right (by omega) (by omega))
  have hround : roundHalfEven units (2 ^ (units.log2 - 52)) ≤ 2 ^ 53 :=
    (roundHalfEven_le _ _).trans hquotient
  have hrank : rankOfUnits units 1 =
      (units.log2 - 52) * 2 ^ 52 + roundHalfEven units (2 ^ (units.log2 - 52)) :=
    rankOfUnits_of_shift (by rw [Nat.div_one]) (by rw [Nat.one_mul])
  have hshift : (units.log2 - 52) * 2 ^ 52 ≤ k * 2 ^ 52 := Nat.mul_le_mul_right _ (by omega)
  have hsum : (k + 2) * 2 ^ 52 = k * 2 ^ 52 + 2 ^ 53 := by ring
  rw [hrank, hsum]
  exact Nat.add_le_add hshift hround

/-- Whole numbers of less than 900 bits round to finite doubles. -/
theorem isFinite_ofInt {n : Int} (h : n.natAbs.log2 < 900) : (ofInt n).isFinite = true := by
  have hunit : unitExponent = 1074 := rfl
  have hlog : (n.natAbs * twoTo unitExponent).log2 < 52 + 1922 :=
    (log2_mul_twoTo_lt n.natAbs unitExponent).trans_le (by omega)
  have hlt : nearestRank n.natAbs 1 < ranks := by
    rw [nearestRank_eq_rankOfUnits]
    exact (rankOfUnits_le hlog).trans_lt (by decide)
  rw [ofInt, ofRatio, ofRank, dif_pos hlt]
  rfl

end Double

end ReminderFlow
