import KwsSoc.Firmware.Conv2d
import KwsSoc.Lib.DoubleWord

/-! # The 64-bit shift of the firmware

A model of `__ashrdi3` of `test/common/intrinsics.c`, which the compiler calls for an arithmetic
right shift of an `int64_t`, and so for the requantisation of NNoM's convolution. It works on the
two words of the value (`DwordSplit`). A shift of a word by a negative count, or by 32 or more, is
undefined (`none`). -/

namespace KwsSoc.Firmware

open Conv1dAccel DoubleWord

/-! ## Words -/

/-- The struct in `dword_split_t`. -/
structure DwordSplit where
  lo : BitVec 32
  hi : BitVec 32

namespace DwordSplit

/-- `i64`, read from the two words. -/
def i64 (d : DwordSplit) : BitVec 64 := d.hi ++ d.lo

/-- The words of an `i64`. -/
def ofI64 (a : BitVec 64) : DwordSplit := ⟨a.extractLsb' 0 32, a.extractLsb' 32 32⟩

@[simp] theorem i64_ofI64 (a : BitVec 64) : (ofI64 a).i64 = a :=
  @BitVec.extractLsb'_append_extractLsb' 32 32 a

end DwordSplit

/-- A shift `op` of a word by `n`. -/
def shift32 (op : BitVec 32 → ℕ → BitVec 32) (x : BitVec 32) (n : ℤ) : Option (BitVec 32) :=
  if 0 ≤ n ∧ n < 32 then some (op x n.toNat) else none

/-- A shift by a count in range is the shift. -/
theorem shift32_eq_some (op : BitVec 32 → ℕ → BitVec 32) (x : BitVec 32) {n : ℤ}
    (h0 : 0 ≤ n) (h32 : n < 32) : shift32 op x n = some (op x n.toNat) :=
  if_pos ⟨h0, h32⟩

/-- A shift by a count out of range is undefined. -/
theorem shift32_eq_none (op : BitVec 32 → ℕ → BitVec 32) (x : BitVec 32) {n : ℤ}
    (h : n < 0 ∨ 32 ≤ n) : shift32 op x n = none :=
  if_neg (by omega)

/-! ## The shift -/

/-- `__ashrdi3`. -/
def ashrdi3 (a : BitVec 64) (b : ℤ) : Option (BitVec 64) :=
  let inw := DwordSplit.ofI64 a
  if b = 0 then some a
  else if b < 32 then do
    let hi ← shift32 .sshiftRight inw.hi b
    let lo ← shift32 (· >>> ·) inw.lo b
    let carry ← shift32 (· <<< ·) inw.hi (32 - b)
    some (DwordSplit.i64 { lo := lo ||| carry, hi })
  else do
    let hi ← shift32 .sshiftRight inw.hi 31
    let lo ← shift32 .sshiftRight inw.hi (b - 32)
    some (DwordSplit.i64 { lo, hi })

/-- A shift below a word. -/
theorem ashrdi3_of_lt (a : BitVec 64) {b : ℤ} (h0 : 0 < b) (h32 : b < 32) :
    ashrdi3 a b = some (a.sshiftRight b.toNat) := by
  have hcount : (32 - b).toNat = 32 - b.toNat := by omega
  calc ashrdi3 a b
      = some ((DwordSplit.ofI64 a).hi.sshiftRight b.toNat ++
          ((DwordSplit.ofI64 a).lo >>> b.toNat |||
            (DwordSplit.ofI64 a).hi <<< (32 - b.toNat))) := by
        rw [ashrdi3, if_neg h0.ne', if_pos h32, shift32_eq_some _ _ h0.le h32,
          shift32_eq_some _ _ h0.le h32, shift32_eq_some _ _ (by omega) (by omega), hcount]
        rfl
    _ = some ((DwordSplit.ofI64 a).i64.sshiftRight b.toNat) := by
        rw [DwordSplit.i64, sshiftRight_append_of_le _ _ (show b.toNat ≤ 32 by omega)]
    _ = some (a.sshiftRight b.toNat) := by rw [DwordSplit.i64_ofI64]

/-- A shift from a word on. -/
theorem ashrdi3_of_ge (a : BitVec 64) {b : ℤ} (h32 : 32 ≤ b) (h64 : b < 64) :
    ashrdi3 a b = some (a.sshiftRight b.toNat) := by
  have hcount : (b - 32).toNat = b.toNat - 32 := by omega
  calc ashrdi3 a b
      = some ((DwordSplit.ofI64 a).hi.sshiftRight (32 - 1) ++
          (DwordSplit.ofI64 a).hi.sshiftRight (b.toNat - 32)) := by
        rw [ashrdi3, if_neg (by omega), if_neg (by omega),
          shift32_eq_some _ _ (by omega) (by omega), shift32_eq_some _ _ (by omega) (by omega),
          hcount]
        rfl
    _ = some ((DwordSplit.ofI64 a).i64.sshiftRight b.toNat) := by
        rw [DwordSplit.i64, sshiftRight_append_of_ge _ _ (show 32 ≤ b.toNat by omega)]
    _ = some (a.sshiftRight b.toNat) := by rw [DwordSplit.i64_ofI64]

/-- **`__ashrdi3` is the shift of the double word**, with every shift of a word defined, for the
counts from 0 to 63. -/
theorem ashrdi3_eq_some (a : BitVec 64) {b : ℤ} (h0 : 0 ≤ b) (h63 : b ≤ 63) :
    ashrdi3 a b = some (a.sshiftRight b.toNat) := by
  obtain rfl | hpos := h0.eq_or_lt
  · rw [ashrdi3, if_pos rfl, Int.toNat_zero, BitVec.sshiftRight_zero]
  · obtain hlt | hge := lt_or_ge b 32
    · exact ashrdi3_of_lt a hpos hlt
    · exact ashrdi3_of_ge a hge (by omega)

/-- Any other count makes one of the shifts of a word undefined. -/
theorem ashrdi3_eq_none (a : BitVec 64) {b : ℤ} (h : b < 0 ∨ 63 < b) : ashrdi3 a b = none := by
  obtain hneg | hbig := h
  · rw [ashrdi3, if_neg hneg.ne, if_pos (by omega), shift32_eq_none _ _ (.inl hneg)]
    rfl
  · rw [ashrdi3, if_neg (by omega), if_neg (by omega), shift32_eq_some _ _ (by omega) (by omega),
      shift32_eq_none _ _ (.inr (show 32 ≤ b - 32 by omega))]
    rfl

/-- **The value of `__ashrdi3`** is the floor of `a / 2 ^ b`, and all its shifts of a word are
defined. -/
theorem ashrdi3_floor (a : BitVec 64) (b : ℤ) (h0 : 0 ≤ b) (h63 : b ≤ 63) :
    ∃ r, ashrdi3 a b = some r ∧ r.toInt = ⌊(a.toInt : ℚ) / 2 ^ b.toNat⌋ :=
  ⟨a.sshiftRight b.toNat, ashrdi3_eq_some a h0 h63, toInt_sshiftRight_eq_floor a b.toNat⟩

/-- The smallest `int64_t`, shifted by 33. -/
theorem ashrdi3_floor_min : ∃ r, ashrdi3 (BitVec.intMin 64) 33 = some r ∧
    r.toInt = ⌊((BitVec.intMin 64).toInt : ℚ) / 2 ^ (33 : ℤ).toNat⌋ :=
  ashrdi3_floor (BitVec.intMin 64) 33 (by norm_num) (by norm_num)

/-! ## Requantisation -/

/-- **A convolution's output from `__ashrdi3`**: the `>> output_rshift` of an accumulator that fits
an `int64_t`. -/
theorem softOut_eq_ashrdi3 (cl : Conv2dLayer) (x : Tensor) (d : LayerData) (h w c : ℕ)
    (hmin : -2 ^ 63 ≤ softSum cl x d h w c + softBias cl d c)
    (hmax : softSum cl x d h w c + softBias cl d c < 2 ^ 63)
    (hshift : (d.outputRshift (qIndex cl.qtype c)).toNat ≤ 63) :
    ∃ r, ashrdi3 (.ofInt 64 (softSum cl x d h w c + softBias cl d c))
        (d.outputRshift (qIndex cl.qtype c)).toNat = some r ∧
      softOut cl x d h w c = clip8 r.toInt := by
  refine ⟨_, ashrdi3_eq_some _ (Int.natCast_nonneg _) (by exact_mod_cast hshift), ?_⟩
  have hfits := BitVec.toInt_ofInt_eq_self (w := 64) (by norm_num) hmin hmax
  rw [softOut, BitVec.toInt_sshiftRight, hfits, Int.toNat_natCast]

end KwsSoc.Firmware
