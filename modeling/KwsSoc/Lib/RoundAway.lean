import Mathlib.Tactic

/-! # Rounding to nearest, ties away from zero

`IsRoundAway q r` says that the integer `r` is the one nearest to the rational `q`, the one of larger
magnitude on a tie. There is at most one (`unique`), and it is odd and monotone in `q` (`neg`,
`mono`). `roundDiv` computes it for a quotient of integers as C programs do, with half of the
divisor added towards the sign of the dividend before a truncating division. -/

namespace RoundAway

/-- `r` is the integer nearest to `q`, ties away from zero. -/
def IsRoundAway (q : ℚ) (r : ℤ) : Prop :=
  |(r : ℚ) - q| ≤ 1 / 2 ∧ (|(r : ℚ) - q| = 1 / 2 → |q| < |(r : ℚ)|)

/-- `a / p`, rounded. -/
def roundDiv (a p : ℤ) : ℤ := if 0 ≤ a then (a + p / 2).tdiv p else (a - p / 2).tdiv p

variable {q q' : ℚ} {r r' : ℤ}

/-- Rounding is odd. -/
theorem IsRoundAway.neg (h : IsRoundAway q r) : IsRoundAway (-q) (-r) := by
  have habs : |((-r : ℤ) : ℚ) - -q| = |(r : ℚ) - q| := by
    rw [← abs_neg]
    congr 1
    push_cast
    ring
  refine ⟨habs.le.trans h.1, fun htie => ?_⟩
  rw [abs_neg, Int.cast_neg, abs_neg]
  exact h.2 (habs.symm.trans htie)

/-- **Rounding is monotone.** -/
theorem IsRoundAway.mono (h : IsRoundAway q r) (h' : IsRoundAway q' r') (hqq : q ≤ q') :
    r ≤ r' := by
  by_contra hlt
  obtain ⟨hlo, hhi⟩ := abs_le.mp h.1
  obtain ⟨hlo', hhi'⟩ := abs_le.mp h'.1
  have hstep : (r' : ℚ) + 1 ≤ r := by exact_mod_cast Int.not_le.mp hlt
  -- both must then be ties half way between `r'` and `r`
  have hq : q = r' + 1 / 2 := by linarith
  have hq' : q' = r' + 1 / 2 := by linarith
  have hr : (r : ℚ) = r' + 1 := by linarith
  have htie := h.2 (by rw [hr, hq, abs_of_nonneg] <;> linarith)
  have htie' := h'.2 (by rw [hq', abs_of_nonpos] <;> linarith)
  rw [hq, hr, ← sq_lt_sq] at htie
  rw [hq', ← sq_lt_sq] at htie'
  -- so `r'` is at least 0 and below 0
  have hpos : (-1 : ℚ) < r' := by nlinarith
  have hneg : (r' : ℚ) < 0 := by nlinarith
  have hpos' : -1 < r' := by exact_mod_cast hpos
  have hneg' : r' < 0 := by exact_mod_cast hneg
  omega

theorem IsRoundAway.unique (h : IsRoundAway q r) (h' : IsRoundAway q r') : r = r' :=
  le_antisymm (h.mono h' le_rfl) (h'.mono h le_rfl)

/-- An integer is its own rounding. -/
theorem isRoundAway_intCast (r : ℤ) : IsRoundAway r r := by
  refine ⟨by norm_num, fun htie => ?_⟩
  norm_num at htie

/-- A quotient of a nonnegative dividend, by the remainder that is left. -/
theorem isRoundAway_of_nonneg {a p : ℤ} (hp : 0 < p) (ha : 0 ≤ a) (hlo : 2 * (r * p - a) ≤ p)
    (hhi : 2 * (a - r * p) < p) : IsRoundAway ((a : ℚ) / p) r := by
  have hpq : (0 : ℚ) < p := by exact_mod_cast hp
  have hloq : 2 * ((r : ℚ) * p - a) ≤ p := by exact_mod_cast hlo
  have hhiq : 2 * ((a : ℚ) - r * p) < p := by exact_mod_cast hhi
  have hq : (a : ℚ) / p * p = a := div_mul_cancel₀ _ hpq.ne'
  have hq0 : 0 ≤ (a : ℚ) / p := div_nonneg (by exact_mod_cast ha) hpq.le
  generalize (a : ℚ) / p = q at hq hq0 ⊢
  have hle : (r : ℚ) - q ≤ 1 / 2 := by nlinarith
  have hgt : -(1 / 2) < (r : ℚ) - q := by nlinarith
  refine ⟨abs_le.mpr ⟨hgt.le, hle⟩, fun htie => ?_⟩
  -- a tie is rounded up
  have hup : (r : ℚ) - q = 1 / 2 := by
    rcases abs_eq (by norm_num : (0 : ℚ) ≤ 1 / 2) |>.mp htie with h | h
    · exact h
    · linarith
  rw [abs_of_nonneg hq0, abs_of_nonneg (by linarith)]
  linarith

theorem roundDiv_neg {a p : ℤ} (hp : 0 < p) : roundDiv (-a) p = -roundDiv a p := by
  rcases lt_trichotomy a 0 with ha | rfl | ha
  · rw [roundDiv, roundDiv, if_pos (by omega), if_neg (by omega), ← Int.neg_tdiv]
    congr 1
    ring
  · have hzero : (0 + p / 2).tdiv p = 0 := Int.tdiv_eq_zero_of_lt (by omega) (by omega)
    rw [neg_zero, roundDiv, if_pos le_rfl, hzero, neg_zero]
  · rw [roundDiv, roundDiv, if_neg (by omega), if_pos (by omega), ← Int.neg_tdiv]
    congr 1
    ring

/-- **Adding half of the divisor before a truncating division rounds to nearest**, ties away from
zero, for odd divisors as well. -/
theorem isRoundAway_roundDiv (a : ℤ) {p : ℤ} (hp : 0 < p) :
    IsRoundAway ((a : ℚ) / p) (roundDiv a p) := by
  have hpos {b : ℤ} (hb : 0 ≤ b) : IsRoundAway ((b : ℚ) / p) (roundDiv b p) := by
    rw [roundDiv, if_pos hb, Int.tdiv_eq_ediv_of_nonneg (by omega)]
    have hmul := Int.ediv_mul_add_emod (b + p / 2) p
    have hmod := Int.emod_nonneg (b + p / 2) hp.ne'
    have hlt := Int.emod_lt_of_pos (b + p / 2) hp
    exact isRoundAway_of_nonneg hp hb (by omega) (by omega)
  rcases le_total 0 a with ha | ha
  · exact hpos ha
  · have hneg := (hpos (b := -a) (by omega)).neg
    rw [roundDiv_neg hp] at hneg
    push_cast at hneg
    rwa [neg_neg, neg_div, neg_neg] at hneg

end RoundAway
