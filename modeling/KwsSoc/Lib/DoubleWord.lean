import Mathlib.Data.Rat.Floor

/-! # Double words in two halves

An arithmetic right shift of a double word `hi ++ lo`, from shifts of its halves: below a word
the low half takes the bits that leave the high one (**`sshiftRight_append_of_le`**), and from a
word on the high half is all sign (**`sshiftRight_append_of_ge`**). The value is the floor of a
division by a power of two (**`toInt_sshiftRight_eq_floor`**). -/

namespace DoubleWord

variable {w : ℕ} (hi lo : BitVec w)

/-- The bits of the low half come from both. -/
theorem getLsbD_low {b i : ℕ} (hb : b ≤ w) (hiw : i < w) :
    (lo >>> b ||| hi <<< (w - b)).getLsbD i = (hi ++ lo).getLsbD (b + i) := by
  rw [BitVec.getLsbD_or, BitVec.getLsbD_ushiftRight, BitVec.getLsbD_shiftLeft,
    BitVec.getLsbD_append]
  by_cases hlo : b + i < w
  · have hout : i < w - b := by omega
    simp only [hlo, hout, decide_true, Bool.not_true, Bool.and_false, Bool.false_and, Bool.or_false,
      if_true]
  · have hin : ¬ i < w - b := by omega
    have hindex : i - (w - b) = b + i - w := by omega
    rw [if_neg hlo, BitVec.getLsbD_of_ge lo (b + i) (by omega), hindex]
    simp only [hin, hiw, decide_true, decide_false, Bool.not_false, Bool.true_and, Bool.false_or]

/-- The sign of a double word is the one of its high half. -/
theorem msb_append_of_pos (hw : 0 < w) : (hi ++ lo).msb = hi.msb := by
  rw [BitVec.msb_append, if_neg hw.ne']

/-- **A shift below a word.** -/
theorem sshiftRight_append_of_le {b : ℕ} (hb : b ≤ w) :
    (hi ++ lo).sshiftRight b = hi.sshiftRight b ++ (lo >>> b ||| hi <<< (w - b)) := by
  apply BitVec.eq_of_getLsbD_eq
  intro i hiw
  have hsign := msb_append_of_pos hi lo (w := w) (by omega)
  have hin : ¬ w + w ≤ i := by omega
  rw [BitVec.getLsbD_append, BitVec.getLsbD_sshiftRight, hsign]
  by_cases hlow : i < w
  · rw [if_pos hlow, getLsbD_low hi lo hb hlow, if_pos (show b + i < w + w by omega)]
    simp only [hin, decide_false, Bool.not_false, Bool.true_and]
  · have hhigh : ¬ w ≤ i - w := by omega
    have hindex : b + i - w = b + (i - w) := by omega
    rw [if_neg hlow, BitVec.getLsbD_sshiftRight, BitVec.getLsbD_append,
      if_neg (show ¬ b + i < w by omega), hindex]
    have hiff : b + i < w + w ↔ b + (i - w) < w := by omega
    simp only [hin, hhigh, hiff, decide_false, Bool.not_false, Bool.true_and]

/-- **A shift from a word on.** -/
theorem sshiftRight_append_of_ge {b : ℕ} (hb : w ≤ b) :
    (hi ++ lo).sshiftRight b = hi.sshiftRight (w - 1) ++ hi.sshiftRight (b - w) := by
  apply BitVec.eq_of_getLsbD_eq
  intro i hiw
  have hsign := msb_append_of_pos hi lo (w := w) (by omega)
  have hin : ¬ w + w ≤ i := by omega
  rw [BitVec.getLsbD_append, BitVec.getLsbD_sshiftRight, hsign, BitVec.getLsbD_append,
    if_neg (show ¬ b + i < w by omega)]
  by_cases hlow : i < w
  · have hout : ¬ w ≤ i := by omega
    have hiff : b + i < w + w ↔ b - w + i < w := by omega
    have hindex : b + i - w = b - w + i := by omega
    rw [if_pos hlow, BitVec.getLsbD_sshiftRight, hindex]
    simp only [hin, hout, hiff, decide_false, Bool.not_false, Bool.true_and]
  · -- every bit of the high half is the sign, the last one among them
    have hhigh : ¬ w ≤ i - w := by omega
    rw [if_neg hlow, if_neg (show ¬ b + i < w + w by omega), BitVec.getLsbD_sshiftRight]
    simp only [hin, hhigh, decide_false, Bool.not_false, Bool.true_and]
    split
    · have hlast : w - 1 + (i - w) = w - 1 := by omega
      rw [hlast, BitVec.msb_eq_getLsbD_last]
    · rfl

/-- **The value of a shifted word.** -/
theorem toInt_sshiftRight_eq_floor {n : ℕ} (x : BitVec n) (b : ℕ) :
    (x.sshiftRight b).toInt = ⌊(x.toInt : ℚ) / 2 ^ b⌋ := by
  have hfloor := Rat.floor_intCast_div_natCast x.toInt (2 ^ b)
  rw [Nat.cast_pow, Nat.cast_pow] at hfloor
  rw [BitVec.toInt_sshiftRight, Int.shiftRight_eq_div_pow]
  exact_mod_cast hfloor.symm

end DoubleWord
