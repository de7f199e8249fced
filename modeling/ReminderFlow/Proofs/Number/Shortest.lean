import ReminderFlow.Number.Decimal
import ReminderFlow.Proofs.Number.Nearest

namespace ReminderFlow

namespace Decimal

/-- The number `digits * 10 ^ exponent` as a fraction. -/
def num (digits : Nat) (exponent : Int) : Nat :=
  if 0 ≤ exponent then digits * tenTo exponent.toNat else digits

def den (exponent : Int) : Nat := if 0 ≤ exponent then 1 else tenTo (-exponent).toNat

theorem den_pos (exponent : Int) : 0 < den exponent := by
  unfold den
  split_ifs
  · exact Nat.one_pos
  · exact Nat.pow_pos (by omega)

/-- Zeros at the end of the digits and a smaller exponent do not change the number. -/
theorem num_mul_den (digits zeros : Nat) (exponent : Int) :
    num (digits * 10 ^ zeros) exponent * den (exponent + zeros) =
      num digits (exponent + zeros) * den exponent := by
  unfold num den
  change (if 0 ≤ exponent then digits * 10 ^ zeros * 10 ^ exponent.toNat else digits * 10 ^ zeros) *
      (if 0 ≤ exponent + zeros then 1 else 10 ^ (-(exponent + zeros)).toNat) =
    (if 0 ≤ exponent + zeros then digits * 10 ^ (exponent + zeros).toNat else digits) *
      (if 0 ≤ exponent then 1 else 10 ^ (-exponent).toNat)
  split_ifs with hexponent hsum hsum
  · have hadd : (exponent + zeros).toNat = zeros + exponent.toNat := by omega
    rw [hadd, Nat.pow_add]
    ring
  · omega
  · have hadd : zeros = (exponent + zeros).toNat + (-exponent).toNat := by omega
    have hpower : 10 ^ zeros = 10 ^ (exponent + zeros).toNat * 10 ^ (-exponent).toNat := by
      rw [← Nat.pow_add, ← hadd]
    rw [hpower]
    ring
  · have hadd : (-exponent).toNat = zeros + (-(exponent + zeros)).toNat := by omega
    rw [hadd, Nat.pow_add]
    ring

end Decimal

namespace Double

theorem Nearest.of_ratio {rank units den units' den' : Nat} (h : Nearest rank units den)
    (hden : 0 < den) (hden' : 0 < den') (heq : units' * den = units * den') :
    Nearest rank units' den' := by
  obtain ⟨hlow, hhigh, hodd⟩ := h
  have hscale (size : Nat) : size * den' * den = size * den * den' := by ring
  have hpoint : 2 * units' * den = 2 * units * den' := by
    rw [Nat.mul_assoc, heq, Nat.mul_assoc]
  refine ⟨?_, ?_, fun hrank => ⟨fun hne => ?_, fun hne => ?_⟩⟩
  · apply Nat.le_of_mul_le_mul_right _ hden
    rw [hscale, hpoint]
    exact Nat.mul_le_mul_right den' hlow
  · apply Nat.le_of_mul_le_mul_right _ hden
    rw [hscale, hpoint]
    exact Nat.mul_le_mul_right den' hhigh
  · apply (hodd hrank).1
    apply Nat.eq_of_mul_eq_mul_right hden'
    rw [← hscale, ← hpoint, hne]
  · apply (hodd hrank).2
    apply Nat.eq_of_mul_eq_mul_right hden'
    rw [← hscale, ← hpoint, hne]

/-- The magnitude is nearest to `digits * 10 ^ exponent`. -/
def NearestDecimal (rank digits : Nat) (exponent : Int) : Prop :=
  Nearest rank (Decimal.num digits exponent * twoTo unitExponent) (Decimal.den exponent)

theorem NearestDecimal.of_zeros {rank digits zeros : Nat} {exponent : Int}
    (h : NearestDecimal rank digits (exponent + zeros)) :
    NearestDecimal rank (digits * 10 ^ zeros) exponent := by
  apply Nearest.of_ratio h (Decimal.den_pos _) (Decimal.den_pos _)
  rw [Nat.mul_right_comm, Decimal.num_mul_den, Nat.mul_right_comm]

theorem NearestDecimal.strip {rank digits zeros : Nat} {exponent : Int}
    (h : NearestDecimal rank (digits * 10 ^ zeros) exponent) :
    NearestDecimal rank digits (exponent + zeros) := by
  apply Nearest.of_ratio h (Decimal.den_pos _) (Decimal.den_pos _)
  rw [Nat.mul_right_comm, ← Decimal.num_mul_den, Nat.mul_right_comm]

theorem unitsOf_pos {rank : Nat} (h : 0 < rank) : 0 < unitsOf rank := by
  rcases Nat.lt_or_ge rank (2 ^ 53) with hlt | hge
  · rwa [unitsOf_of_le hlt.le]
  · obtain ⟨s, q, rfl, hq, hq'⟩ := exists_steps hge
    rw [unitsOf_steps hq hq'.le]
    exact Nat.mul_pos (by omega) (Nat.two_pow_pos _)

/-- Twice the midpoint above a magnitude. -/
theorem unitsOf_add_unitsOf_succ_le {rank k : Nat} (h : rank < (k + 2) * 2 ^ 52) :
    unitsOf rank + unitsOf (rank + 1) ≤ 2 ^ (54 + k) := by
  rcases Nat.lt_or_ge rank (2 ^ 53) with hlt | hge
  · rw [unitsOf_of_le hlt.le, unitsOf_of_le hlt, Nat.pow_add]
    have hpower : 2 ^ 54 * 1 ≤ 2 ^ 54 * 2 ^ k := Nat.mul_le_mul_left _ (Nat.two_pow_pos k)
    omega
  · obtain ⟨s, q, rfl, hq, hq'⟩ := exists_steps hge
    rw [unitsOf_steps hq hq'.le, Nat.add_assoc, unitsOf_steps (by omega) hq']
    have hcount : q + (q + 1) ≤ 2 ^ 54 := by omega
    have hpower : 2 ^ (s + 1) ≤ 2 ^ k := Nat.pow_le_pow_right (by omega) (by omega)
    calc q * 2 ^ (s + 1) + (q + 1) * 2 ^ (s + 1) = (q + (q + 1)) * 2 ^ (s + 1) := by ring
      _ ≤ 2 ^ 54 * 2 ^ k := Nat.mul_le_mul hcount hpower
      _ = 2 ^ (54 + k) := (Nat.pow_add ..).symm

theorem natAbs_scaled_le (x : Double) {k : Nat} (hk : ranks ≤ (k + 2) * 2 ^ 52) :
    x.scaled.natAbs ≤ twoTo (54 + k) := by
  cases x with
  | finite negative rank =>
    have hnext := unitsOf_add_unitsOf_succ_le (Nat.lt_of_lt_of_le rank.isLt hk)
    have hrank : unitsOf rank ≤ twoTo (54 + k) := (Nat.le_add_right _ _).trans hnext
    cases negative
    · exact hrank
    · rw [Double.scaled, if_pos rfl, Int.natAbs_neg]
      exact hrank
  | infinite negative => exact Nat.zero_le _
  | nan => exact Nat.zero_le _

theorem tenTo_le_tenTo {a b : Nat} (h : a ≤ b) : tenTo a ≤ tenTo b :=
  Nat.pow_le_pow_right (by omega) h

theorem twoTo_pos (k : Nat) : 0 < twoTo k := Nat.two_pow_pos k

theorem tenTo_pos (k : Nat) : 0 < tenTo k := Nat.pow_pos (by omega)

theorem tenTo_add (a b : Nat) : tenTo (a + b) = tenTo a * tenTo b := Nat.pow_add ..

theorem twoTo_succ (k : Nat) : twoTo (k + 1) = twoTo k * 2 := Nat.pow_succ ..

theorem mul_twoTo_lt (n k : Nat) : n * twoTo k < twoTo (n.log2 + 1 + k) := by
  have hlog : n < 2 ^ (n.log2 + 1) := Nat.lt_log2_self
  calc n * 2 ^ k < 2 ^ (n.log2 + 1) * 2 ^ k := Nat.mul_lt_mul_of_pos_right hlog (Nat.two_pow_pos k)
    _ = 2 ^ (n.log2 + 1 + k) := (Nat.pow_add ..).symm

theorem twoTo_add_lt_tenTo_mul {a b c : Nat} (hb : 0 < b) (hc : b ≤ c) :
    twoTo (b + a) < tenTo c * twoTo a := by
  have hpower : 2 ^ b < 10 ^ b := Nat.pow_lt_pow_left (by omega) (Nat.ne_of_gt hb)
  have hten : 10 ^ b ≤ 10 ^ c := Nat.pow_le_pow_right (by omega) hc
  calc twoTo (b + a) = 2 ^ b * 2 ^ a := Nat.pow_add ..
    _ < 10 ^ c * 2 ^ a :=
      Nat.mul_lt_mul_of_pos_right (Nat.lt_of_lt_of_le hpower hten) (Nat.two_pow_pos a)

theorem twoTo_le_tenTo {a b : Nat} (n : Nat) (h : twoTo a ≤ tenTo b) :
    twoTo (n + a) ≤ tenTo (n + b) := by
  have hpower : 2 ^ n ≤ 10 ^ n := Nat.pow_le_pow_left (by omega) n
  calc 2 ^ (n + a) = 2 ^ n * twoTo a := Nat.pow_add ..
    _ ≤ 10 ^ n * tenTo b := Nat.mul_le_mul hpower h
    _ = 10 ^ (n + b) := (Nat.pow_add ..).symm

/-- A decimal that a magnitude is nearest to is not so small that it counts as zero. -/
theorem NearestDecimal.not_tiny {rank digits : Nat} {exponent : Int}
    (h : NearestDecimal rank digits exponent) (hrank : 0 < rank) :
    ¬exponent + digits.log2 < -400 := by
  intro hsmall
  have hneg : ¬0 ≤ exponent := by omega
  have hlow := h.low
  unfold Decimal.num Decimal.den at hlow
  rw [if_neg hneg, if_neg hneg] at hlow
  have hunits := unitsOf_pos hrank
  have hden : tenTo (-exponent).toNat ≤ 2 * (digits * twoTo unitExponent) := by
    calc tenTo (-exponent).toNat = 1 * tenTo (-exponent).toNat := (Nat.one_mul _).symm
      _ ≤ (unitsOf (rank - 1) + unitsOf rank) * tenTo (-exponent).toNat :=
        Nat.mul_le_mul_right _ (by omega)
      _ ≤ 2 * (digits * twoTo unitExponent) := hlow
  have hlarge : tenTo (digits.log2 + 1 + 400) ≤ tenTo (-exponent).toNat :=
    tenTo_le_tenTo (by omega)
  have hdigits := mul_twoTo_lt digits unitExponent
  have hconst : twoTo (unitExponent + 1) ≤ tenTo 400 := by decide +kernel
  have hcompare := twoTo_le_tenTo (digits.log2 + 1) hconst
  rw [← Nat.add_assoc, twoTo_succ] at hcompare
  have hall := (hcompare.trans hlarge).trans hden
  omega

/-- Nor is it so large that it counts as infinite. -/
theorem NearestDecimal.not_huge {rank digits : Nat} {exponent : Int}
    (h : NearestDecimal rank digits exponent) (hrank : rank < ranks) (hdigits : 0 < digits) :
    ¬400 < exponent := by
  intro hlarge
  have hhigh := h.high
  unfold Decimal.num Decimal.den at hhigh
  rw [if_pos (by omega), if_pos (by omega), Nat.mul_one] at hhigh
  have hbound := unitsOf_add_unitsOf_succ_le (k := 2045) hrank
  have hten : tenTo 400 ≤ digits * tenTo exponent.toNat := by
    calc tenTo 400 ≤ tenTo exponent.toNat := tenTo_le_tenTo (by omega)
      _ = 1 * tenTo exponent.toNat := (Nat.one_mul _).symm
      _ ≤ digits * tenTo exponent.toNat := Nat.mul_le_mul_right _ hdigits
  have hpoint : 2 * (tenTo 400 * twoTo unitExponent) ≤
      2 * (digits * tenTo exponent.toNat * twoTo unitExponent) :=
    Nat.mul_le_mul_left 2 (Nat.mul_le_mul_right _ hten)
  have hconst : ¬2 * (tenTo 400 * twoTo unitExponent) ≤ 2 ^ (54 + 2045) := by decide +kernel
  exact hconst (hpoint.trans (hhigh.trans hbound))

/-- A decimal is read as the magnitude that is nearest to it. -/
theorem ofDecimal_of_nearest {rank digits : Nat} {exponent : Int} (negative : Bool)
    (h : NearestDecimal rank digits exponent) (hpos : 0 < rank) (hrank : rank < ranks)
    (hdigits : 0 < digits) :
    ofDecimal negative digits exponent = finite negative ⟨rank, hrank⟩ := by
  have htiny : ¬(digits = 0 ∨ exponent + digits.log2 < -400) := by
    rintro (hzero | hsmall)
    · omega
    · exact h.not_tiny hpos hsmall
  have hratio (num den : Nat) (hden : 0 < den) (h : Nearest rank (num * twoTo unitExponent) den) :
      ofRatio negative num den = finite negative ⟨rank, hrank⟩ := by
    rw [ofRatio, nearestRank_eq_rankOfUnits, rankOfUnits_eq hden h, ofRank, dif_pos hrank]
  have hden := Decimal.den_pos exponent
  unfold NearestDecimal Decimal.num Decimal.den at h
  unfold Decimal.den at hden
  unfold ofDecimal
  rw [if_neg htiny, if_neg (NearestDecimal.not_huge ‹_› hrank hdigits)]
  split_ifs with hexponent
  · rw [if_pos hexponent, if_pos hexponent] at h
    exact hratio _ _ (by omega) h
  · rw [if_neg hexponent, if_neg hexponent] at h
    rw [if_neg hexponent] at hden
    exact hratio _ _ hden h

theorem gridOf_of_nonneg {exponent : Int} (h : 0 ≤ exponent) :
    gridOf exponent = ⟨tenTo exponent.toNat * twoTo (unitExponent + 1), 1⟩ := if_pos h

theorem gridOf_of_neg {exponent : Int} (h : ¬0 ≤ exponent) :
    gridOf exponent = ⟨twoTo (unitExponent + 1), tenTo (-exponent).toNat⟩ := if_neg h

theorem readsBack_iff {rank n : Nat} {exponent : Int} :
    readsBack rank (gridOf exponent) n = true ↔ NearestDecimal rank n exponent := by
  have hpoint : n * (gridOf exponent).step = 2 * (Decimal.num n exponent * twoTo unitExponent) := by
    unfold Decimal.num
    by_cases h : 0 ≤ exponent
    · rw [gridOf_of_nonneg h, if_pos h, twoTo_succ, ← Nat.mul_assoc, ← Nat.mul_assoc,
        Nat.mul_comm _ 2]
    · rw [gridOf_of_neg h, if_neg h, twoTo_succ, ← Nat.mul_assoc, Nat.mul_comm _ 2]
  have hden : (gridOf exponent).den = Decimal.den exponent := by
    unfold Decimal.den
    by_cases h : 0 ≤ exponent
    · rw [gridOf_of_nonneg h, if_pos h]
    · rw [gridOf_of_neg h, if_neg h]
  unfold readsBack
  rw [hpoint, hden]
  dsimp only
  split_ifs with heven
  · rw [Bool.and_eq_true, decide_eq_true_eq, decide_eq_true_eq]
    exact ⟨fun h => ⟨h.1, h.2, fun hodd => by omega⟩, fun h => ⟨h.low, h.high⟩⟩
  · rw [Bool.and_eq_true, decide_eq_true_eq, decide_eq_true_eq]
    refine ⟨fun h => ⟨h.1.le, h.2.le, fun _ => ⟨h.1.ne, h.2.ne⟩⟩, fun h => ?_⟩
    obtain ⟨hlow, hhigh⟩ := h.odd (by omega)
    exact ⟨lt_of_le_of_ne h.low hlow, lt_of_le_of_ne h.high hhigh⟩

theorem roundHalfEven_spec (n : Nat) {d : Nat} (hd : 0 < d) :
    2 * n ≤ 2 * (roundHalfEven n d * d) + d ∧ 2 * (roundHalfEven n d * d) ≤ 2 * n + d := by
  have hdiv := Nat.div_add_mod n d
  have hmod := Nat.mod_lt n hd
  have hcomm : n / d * d = d * (n / d) := Nat.mul_comm _ _
  have hnext : (n / d + 1) * d = d * (n / d) + d := by rw [Nat.add_one_mul, hcomm]
  unfold roundHalfEven
  dsimp only
  split_ifs with hbelow habove
  · rw [hcomm]
    omega
  · rw [hnext]
    omega
  · rcases Nat.mod_two_eq_zero_or_one (n / d) with heven | hodd
    · rw [heven, Nat.add_zero, hcomm]
      omega
    · rw [hodd, hnext]
      omega

/-- How far a magnitude is from the one before: not further than from the next one, and far enough
for seventeen digits. -/
theorem exists_gap {rank : Nat} (h : 0 < rank) :
    ∃ gap, 0 < gap ∧ unitsOf (rank - 1) + gap = unitsOf rank ∧
      unitsOf rank + gap ≤ unitsOf (rank + 1) ∧ unitsOf rank ≤ gap * 2 ^ 53 := by
  rcases Nat.lt_or_ge rank (2 ^ 53) with hlt | hge
  · rw [unitsOf_of_le hlt.le, unitsOf_of_le hlt, unitsOf_of_le (by omega)]
    exact ⟨1, by omega, by omega, by omega, by omega⟩
  · obtain ⟨s, q, rfl, hq, hq'⟩ := exists_steps hge
    have hnext : unitsOf ((s + 1) * 2 ^ 52 + q + 1) = (q + 1) * 2 ^ (s + 1) := by
      rw [Nat.add_assoc]
      exact unitsOf_steps (by omega) hq'
    rw [unitsOf_steps hq hq'.le, hnext]
    rcases Nat.eq_or_lt_of_le hq with rfl | hlt
    · have hprev : unitsOf ((s + 1) * 2 ^ 52 + 2 ^ 52 - 1) = (2 ^ 53 - 1) * 2 ^ s := by
        rw [show (s + 1) * 2 ^ 52 + 2 ^ 52 - 1 = s * 2 ^ 52 + (2 ^ 53 - 1) by omega]
        exact unitsOf_steps (by omega) (by omega)
      rw [hprev, Nat.pow_succ]
      exact ⟨2 ^ s, Nat.two_pow_pos s, by omega, by omega, by omega⟩
    · have hprev : unitsOf ((s + 1) * 2 ^ 52 + q - 1) = (q - 1) * 2 ^ (s + 1) := by
        rw [Nat.add_sub_assoc (by omega)]
        exact unitsOf_steps (by omega) (by omega)
      have hself : (q - 1) * 2 ^ (s + 1) + 2 ^ (s + 1) = q * 2 ^ (s + 1) := by
        rw [← Nat.add_one_mul, Nat.sub_add_cancel (by omega)]
      have hbound : q * 2 ^ (s + 1) ≤ 2 ^ 53 * 2 ^ (s + 1) := Nat.mul_le_mul_right _ hq'.le
      rw [hprev]
      refine ⟨2 ^ (s + 1), Nat.two_pow_pos _, hself, ?_, ?_⟩
      · rw [Nat.add_one_mul]
      · rwa [Nat.mul_comm (2 ^ (s + 1))]

/-- The point of a grid that is next to a magnitude is read back, if the steps are small enough. -/
theorem readsBack_roundHalfEven {rank gap : Nat} {grid : Grid} (hstep : 0 < grid.step)
    (hprev : unitsOf (rank - 1) + gap = unitsOf rank)
    (hnext : unitsOf rank + gap ≤ unitsOf (rank + 1)) (hsmall : grid.step < 2 * (gap * grid.den)) :
    readsBack rank grid (roundHalfEven (2 * unitsOf rank * grid.den) grid.step) = true := by
  obtain ⟨hlow, hhigh⟩ := roundHalfEven_spec (2 * unitsOf rank * grid.den) hstep
  generalize roundHalfEven (2 * unitsOf rank * grid.den) grid.step = n at hlow hhigh ⊢
  have hbelow : (unitsOf (rank - 1) + unitsOf rank) * grid.den + gap * grid.den =
      2 * unitsOf rank * grid.den := by
    rw [← Nat.add_mul]
    congr 1
    omega
  have habove : 2 * unitsOf rank * grid.den + gap * grid.den ≤
      (unitsOf rank + unitsOf (rank + 1)) * grid.den := by
    rw [← Nat.add_mul]
    apply Nat.mul_le_mul_right
    omega
  have hlower : (unitsOf (rank - 1) + unitsOf rank) * grid.den < n * grid.step := by omega
  have hupper : n * grid.step < (unitsOf rank + unitsOf (rank + 1)) * grid.den := by omega
  unfold readsBack
  dsimp only
  split_ifs
  · simp [hlower.le, hupper.le]
  · simp [hlower, hupper]

theorem tenTo_length_le {n : Nat} (h : 0 < n) : tenTo (n.repr.length - 1) ≤ n := by
  rcases Nat.eq_zero_or_pos (n.repr.length - 1) with hzero | hpos
  · rw [hzero]
    exact h
  · by_contra hlt
    have hle := (Nat.length_repr_le_iff hpos).2 (Nat.not_le.1 hlt)
    omega

theorem tenTo_length_mul_le {n d : Nat} (hd : 0 < d) (hle : d ≤ n) :
    tenTo ((n / d).repr.length - 1) * d ≤ n := by
  have hlength := tenTo_length_le (Nat.div_pos hle hd)
  exact (Nat.mul_le_mul_right d hlength).trans (Nat.div_mul_le_self n d)

/-- The leading digit of a magnitude stands where it is said to, or further to the left. -/
theorem tenTo_leadingExponent_le {rank : Nat} (h : 0 < rank) :
    0 ≤ leadingExponent rank + 324 ∧
      tenTo (leadingExponent rank + 324).toNat * twoTo unitExponent ≤ unitsOf rank * tenTo 324 := by
  have hconst : twoTo unitExponent ≤ tenTo 324 := by decide +kernel
  have hpos := twoTo_pos unitExponent
  unfold leadingExponent
  generalize twoTo unitExponent = unit at hconst hpos ⊢
  generalize tenTo 324 = scale at hconst ⊢
  have hle : unit ≤ unitsOf rank * scale :=
    hconst.trans (Nat.le_mul_of_pos_left scale (unitsOf_pos h))
  have hbound := tenTo_length_mul_le hpos hle
  have hrepr : 0 < (unitsOf rank * scale / unit).repr.length := Nat.length_repr_pos
  generalize (unitsOf rank * scale / unit).repr.length = length at hbound hrepr ⊢
  have hexponent : ((length : Int) - 325 + 324).toNat = length - 1 := by omega
  rw [hexponent]
  exact ⟨by omega, hbound⟩

/-- With seventeen digits the steps of the grid are small. -/
theorem step_mul_le {rank : Nat} (h : 0 < rank) :
    (gridOf (leadingExponent rank - 16)).step * tenTo 16 ≤
      2 * (unitsOf rank * (gridOf (leadingExponent rank - 16)).den) := by
  obtain ⟨hnonneg, hbound⟩ := tenTo_leadingExponent_le h
  generalize leadingExponent rank = leading at hnonneg hbound ⊢
  have hten := tenTo_pos 324
  by_cases hexponent : 0 ≤ leading - 16
  · have hadd : (leading + 324).toNat = (leading - 16).toNat + 16 + 324 := by omega
    rw [hadd, tenTo_add, Nat.mul_right_comm] at hbound
    have hcancel := Nat.le_of_mul_le_mul_right hbound hten
    rw [tenTo_add] at hcancel
    rw [gridOf_of_nonneg hexponent, twoTo_succ]
    generalize twoTo unitExponent = unit at hcancel ⊢
    dsimp only
    calc tenTo (leading - 16).toNat * (unit * 2) * tenTo 16
        = 2 * (tenTo (leading - 16).toNat * tenTo 16 * unit) := by ring
      _ ≤ 2 * (unitsOf rank * 1) := by
        rw [Nat.mul_one]
        exact Nat.mul_le_mul_left 2 hcancel
  · have hadd : (leading + 324).toNat + (-(leading - 16)).toNat = 16 + 324 := by omega
    have hscaled := Nat.mul_le_mul_right (tenTo (-(leading - 16)).toNat) hbound
    rw [Nat.mul_right_comm, ← tenTo_add, hadd, tenTo_add, Nat.mul_right_comm (tenTo 16),
      Nat.mul_right_comm (unitsOf rank)] at hscaled
    have hcancel := Nat.le_of_mul_le_mul_right hscaled hten
    rw [gridOf_of_neg hexponent, twoTo_succ]
    generalize twoTo unitExponent = unit at hcancel ⊢
    dsimp only
    calc unit * 2 * tenTo 16 = 2 * (tenTo 16 * unit) := by ring
      _ ≤ 2 * (unitsOf rank * tenTo (-(leading - 16)).toNat) := Nat.mul_le_mul_left 2 hcancel

theorem step_pos (exponent : Int) : 0 < (gridOf exponent).step := by
  have htwo := twoTo_pos (unitExponent + 1)
  by_cases h : 0 ≤ exponent
  · rw [gridOf_of_nonneg h]
    generalize twoTo (unitExponent + 1) = unit at htwo ⊢
    exact Nat.mul_pos (tenTo_pos exponent.toNat) htwo
  · rw [gridOf_of_neg h]
    generalize twoTo (unitExponent + 1) = unit at htwo ⊢
    exact htwo

/-- Seventeen digits are read back. -/
theorem isSome_withDigits?_seventeen {rank : Nat} (h : 0 < rank) :
    (withDigits? rank 17).isSome = true := by
  obtain ⟨gap, hgap, hprev, hnext, hfar⟩ := exists_gap h
  have hsteps := step_mul_le h
  have hexponent : leadingExponent rank - (17 : Nat) + 1 = leadingExponent rank - 16 := by omega
  unfold withDigits?
  rw [hexponent]
  dsimp only
  have hpositive := step_pos (leadingExponent rank - 16)
  generalize gridOf (leadingExponent rank - 16) = grid at hsteps hpositive ⊢
  have hsmall : grid.step < 2 * (gap * grid.den) := by
    have hmul : unitsOf rank * grid.den ≤ gap * grid.den * 2 ^ 53 := by
      rw [Nat.mul_right_comm]
      exact Nat.mul_le_mul_right _ hfar
    have hten : tenTo 16 = 10 ^ 16 := rfl
    rw [hten] at hsteps
    omega
  have hback := readsBack_roundHalfEven hpositive hprev hnext hsmall
  rw [neighbours, List.find?_cons_of_pos hback]
  rfl

/-- The shortest decimal is on some grid a point that is read back, less the zeros at its end. -/
theorem exists_shortest {rank : Nat} (h : 0 < rank) :
    ∃ n exponent, NearestDecimal rank n exponent ∧ shortest rank = .stripZeros n exponent := by
  have hsome : ((List.range 17).findSome? fun i => withDigits? rank (i + 1)).isSome = true := by
    rw [List.findSome?_isSome_iff]
    exact ⟨16, by decide, isSome_withDigits?_seventeen h⟩
  obtain ⟨d, hd⟩ := Option.isSome_iff_exists.1 hsome
  obtain ⟨i, -, hi⟩ := List.exists_of_findSome?_eq_some hd
  obtain ⟨n, hn, rfl⟩ := Option.map_eq_some_iff.1 hi
  refine ⟨n, _, readsBack_iff.1 (List.find?_some hn), ?_⟩
  rw [shortest, if_neg (by omega), hd]
  rfl

end Double

namespace Decimal

theorem stripZeros_spec (n : Nat) (exponent : Int) (h : 0 < n) :
    ∃ zeros : Nat, n = (stripZeros n exponent).digits * 10 ^ zeros ∧
      (stripZeros n exponent).exponent = exponent + zeros ∧ 0 < (stripZeros n exponent).digits := by
  fun_induction stripZeros n exponent with
  | case1 exponent => omega
  | case2 n exponent hn hmod ih =>
    obtain ⟨zeros, hdigits, hexponent, hpos⟩ := ih (by omega)
    refine ⟨zeros + 1, ?_, ?_, hpos⟩
    · rw [Nat.pow_succ, ← Nat.mul_assoc, ← hdigits]
      omega
    · rw [hexponent]
      omega
  | case3 n exponent hn hmod => exact ⟨0, (Nat.mul_one n).symm, (Int.add_zero exponent).symm, h⟩

end Decimal

namespace Double

theorem NearestDecimal.pos {rank : Nat} {exponent : Int} {n : Nat}
    (h : NearestDecimal rank n exponent) (hrank : 0 < rank) : 0 < n := by
  rcases Nat.eq_zero_or_pos n with rfl | hpos
  · have hlow := h.low
    have hzero : Decimal.num 0 exponent = 0 := by
      unfold Decimal.num
      split_ifs
      · exact Nat.zero_mul _
      · rfl
    have hmid : 0 < (unitsOf (rank - 1) + unitsOf rank) * Decimal.den exponent :=
      Nat.mul_pos (Nat.add_pos_right _ (unitsOf_pos hrank)) (Decimal.den_pos exponent)
    rw [hzero, Nat.zero_mul] at hlow
    omega
  · exact hpos

/-- A magnitude is nearest to its shortest decimal. -/
theorem nearest_shortest {rank : Nat} (h : 0 < rank) :
    NearestDecimal rank (shortest rank).digits (shortest rank).exponent ∧
      0 < (shortest rank).digits := by
  obtain ⟨n, exponent, hnearest, heq⟩ := exists_shortest h
  obtain ⟨zeros, hdigits, hexponent, hpos⟩ :=
    Decimal.stripZeros_spec n exponent (hnearest.pos h)
  rw [heq]
  refine ⟨?_, hpos⟩
  rw [hexponent]
  rw [hdigits] at hnearest
  exact hnearest.strip

end Double

end ReminderFlow
