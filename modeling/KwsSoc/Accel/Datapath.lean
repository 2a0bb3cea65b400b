import KwsSoc.Accel.Sequential

/-! # The datapath over the integers

What the buffers and the multiplier compute, byte by byte and over `ℤ`: the byte `k` of a buffer
after a load (`byte_loadWords`, `byte_loadBytes`), the multiply loop as a sum of signed products
(`macSum_eq`), and bias, shift and saturation as integer operations (`clipped_eq`). -/

namespace KwsSoc.Conv1dAccel

open ByteWord Finset

/-! ## Bytes of buffers -/

/-- Byte `k` of a buffer. -/
def WordBuf.byte (b : WordBuf) (k : ℕ) : BitVec 8 :=
  byteLane (b (BitVec.ofNat 6 (k / 4))) (BitVec.ofNat 2 k)

/-- Lane `j` of the word at `a` is the byte at `a + j`. -/
theorem byteLane_word (m : Mem) (a : BitVec 32) (k : ℕ) :
    byteLane (m.word a) (BitVec.ofNat 2 k) = m (a + BitVec.ofNat 32 (k % 4)) := by
  have hk : BitVec.ofNat 2 k = BitVec.ofNat 2 (k % 4) := by
    apply BitVec.eq_of_toNat_eq
    simp
  rw [hk]
  have h4 : k % 4 < 4 := Nat.mod_lt _ (by decide)
  interval_cases k % 4 <;> simp [Mem.word]

/-- Word `i` of a buffer after `n` words have been loaded. -/
theorem loadWords_apply (m : Mem) (a : BitVec 32) (b : WordBuf) (n : ℕ) (i : BitVec 6) :
    loadWords m a b n i =
      if i.toNat < n then m.word (a + 4#32 * BitVec.ofNat 32 i.toNat) else b i := by
  induction n with
  | zero => simp [loadWords]
  | succ n ih =>
    rw [loadWords, WordBuf.write, ih]
    by_cases h : i.toNat = n
    · simp [h]
    · rw [if_neg h]
      exact if_congr (by omega) rfl rfl

/-- **Byte `k` of a buffer after a word load** is the byte `k` after the load address. -/
theorem byte_loadWords (m : Mem) (a : BitVec 32) (b : WordBuf) {n k : ℕ} (hk : k < 4 * n)
    (h256 : k < 256) : (loadWords m a b n).byte k = m (a + BitVec.ofNat 32 k) := by
  have hi : (BitVec.ofNat 6 (k / 4)).toNat = k / 4 := by
    rw [BitVec.toNat_ofNat, Nat.mod_eq_of_lt (by omega)]
  rw [WordBuf.byte, loadWords_apply, hi, if_pos (by omega), byteLane_word, BitVec.add_assoc]
  congr 2
  apply BitVec.eq_of_toNat_eq
  simp only [BitVec.toNat_add, BitVec.toNat_mul, BitVec.toNat_ofNat]
  omega

/-- **Byte `k` of a buffer after a byte load.** -/
theorem byte_loadBytes (m : Mem) (a : BitVec 32) (b : WordBuf) (n : ℕ) {k : ℕ} (h256 : k < 256) :
    (loadBytes m a b n).byte k = if k < n then m (a + BitVec.ofNat 32 k) else b.byte k := by
  have hi : (BitVec.ofNat 6 (k / 4)).toNat = k / 4 := by
    rw [BitVec.toNat_ofNat, Nat.mod_eq_of_lt (by omega)]
  induction n with
  | zero => simp [loadBytes]
  | succ n ih =>
    have hbyte : (loadBytes m a b (n + 1)).byte k =
        if k = n then m (a + BitVec.ofNat 32 n) else (loadBytes m a b n).byte k := by
      rw [WordBuf.byte, loadBytes, WordBuf.writeLane, hi]
      by_cases hw : k / 4 = n / 4
      · have hlane : BitVec.ofNat 2 n = BitVec.ofNat 2 k ↔ k = n := by
          rw [← BitVec.toNat_inj]
          simp only [BitVec.toNat_ofNat]
          omega
        rw [if_pos hw, byteLane_setLane]
        exact if_congr hlane rfl rfl
      · rw [if_neg hw, if_neg (fun h => hw (by rw [h]))]
        rfl
    rw [hbyte, ih]
    by_cases h : k = n
    · simp [h]
    · rw [if_neg h]
      exact if_congr (by omega) rfl rfl

/-- A zeroed word reads as zero bytes; the others keep theirs. -/
theorem byte_write_zero (b : WordBuf) {i k : ℕ} (h256 : k < 256) (h : k / 4 = i) :
    (b.write i 0).byte k = 0 := by
  have hi : (BitVec.ofNat 6 (k / 4)).toNat = k / 4 := by
    rw [BitVec.toNat_ofNat, Nat.mod_eq_of_lt (by omega)]
  rw [WordBuf.byte, WordBuf.write, hi, if_pos h, byteLane]
  simp

/-! ## The multiply loop -/

/-- The product of two signed bytes, as an integer. -/
theorem macProduct_eq (i w : BitVec 8) : macProduct i w = BitVec.ofInt 32 (i.toInt * w.toInt) := by
  apply BitVec.eq_of_toInt_eq
  have hi := BitVec.toInt_lt (x := i)
  have hi' := BitVec.le_toInt (x := i)
  have hw := BitVec.toInt_lt (x := w)
  have hw' := BitVec.le_toInt (x := w)
  norm_num at hi hi' hw hw'
  have hlo : -2 ^ 14 ≤ i.toInt * w.toInt := by nlinarith
  have hhi : i.toInt * w.toInt ≤ 2 ^ 14 := by nlinarith
  rw [macProduct, BitVec.toInt_signExtend_of_le (by decide), BitVec.toInt_mul,
    BitVec.toInt_signExtend_of_le (by decide), BitVec.toInt_signExtend_of_le (by decide),
    BitVec.toInt_ofInt, Int.bmod_eq_of_le (by norm_num; omega) (by norm_num; omega),
    Int.bmod_eq_of_le (by norm_num; omega) (by norm_num; omega)]

/-- **The multiply loop** sums the products of all bytes of its words. -/
theorem macSum_eq (inBuf wtBuf : WordBuf) (n : ℕ) :
    macSum inBuf wtBuf n =
      BitVec.ofInt 32 (∑ k ∈ range (4 * n), (inBuf.byte k).toInt * (wtBuf.byte k).toInt) := by
  induction n with
  | zero => rfl
  | succ n ih =>
    have hbyte : ∀ (b : WordBuf) (j : ℕ), j < 4 →
        byteLane (b (BitVec.ofNat 6 n)) (BitVec.ofNat 2 j) = b.byte (4 * n + j) := by
      intro b j hj
      rw [WordBuf.byte, show (4 * n + j) / 4 = n by omega]
      congr 1
      apply BitVec.eq_of_toNat_eq
      simp only [BitVec.toNat_ofNat]
      omega
    have h0 := fun b => hbyte b 0 (by decide)
    have h1 := fun b => hbyte b 1 (by decide)
    have h2 := fun b => hbyte b 2 (by decide)
    have h3 := fun b => hbyte b 3 (by decide)
    rw [macSum, ih, mac4, show 4 * (n + 1) = 4 * n + 1 + 1 + 1 + 1 by ring]
    simp only [sum_range_succ, BitVec.ofInt_add, macProduct_eq]
    simp only [BitVec.ofNat_eq_ofNat, h0, h1, h2, h3, Nat.add_zero, BitVec.add_assoc]

/-- Products with zero weights drop out of the sum. -/
theorem sum_byte_eq (inBuf wtBuf : WordBuf) {p n : ℕ} (hp : p ≤ n)
    (hz : ∀ k, p ≤ k → k < n → wtBuf.byte k = 0) :
    ∑ k ∈ range n, (inBuf.byte k).toInt * (wtBuf.byte k).toInt =
      ∑ k ∈ range p, (inBuf.byte k).toInt * (wtBuf.byte k).toInt := by
  symm
  apply sum_subset (range_mono hp)
  intro k hk hk'
  rw [hz k (by simpa using hk') (by simpa using hk)]
  simp

/-! ## Bias, shift and saturation -/

/-- Saturation of an integer to a signed byte. -/
def clip8 (z : ℤ) : BitVec 8 := BitVec.ofInt 8 (max (-128) (min 127 z))

/-- Saturation of a signed word is saturation of its value. -/
theorem saturate_eq (z : BitVec 32) :
    (if (127#32).slt z then 127#8 else if z.slt (-128#32) then -128#8
      else z.extractLsb' 0 8) = clip8 z.toInt := by
  have hhi : (127#32).slt z = true ↔ 127 < z.toInt := BitVec.slt_iff_toInt_lt
  have hlo : z.slt (-128#32) = true ↔ z.toInt < -128 := BitVec.slt_iff_toInt_lt
  by_cases h1 : 127 < z.toInt
  · rw [if_pos (hhi.mpr h1), clip8, min_eq_left h1.le]
    rfl
  · rw [if_neg (fun h => h1 (hhi.mp h))]
    by_cases h2 : z.toInt < -128
    · rw [if_pos (hlo.mpr h2), clip8, min_eq_right (by omega), max_eq_left h2.le]
      rfl
    · rw [if_neg (fun h => h2 (hlo.mp h)), clip8, min_eq_right (by omega), max_eq_right (by omega)]
      apply BitVec.eq_of_toNat_eq
      rw [BitVec.extractLsb'_toNat, BitVec.toNat_ofInt, BitVec.toInt_eq_toNat_bmod]
      simp only [Nat.shiftRight_zero, Int.bmod_def]
      omega

/-- **Bias, shift and saturation** of an accumulator that holds `s` modulo `2 ^ 32`. -/
theorem clipped_eq (s : ℤ) (biasVal : BitVec 32) (curShift : BitVec 5) :
    clipped (BitVec.ofInt 32 s) biasVal curShift =
      clip8 (Int.bmod (s + biasVal.toInt) (2 ^ 32) >>> curShift.toNat) := by
  have hval : (shifted (BitVec.ofInt 32 s) biasVal curShift).toInt =
      Int.bmod (s + biasVal.toInt) (2 ^ 32) >>> curShift.toNat := by
    rw [shifted, BitVec.toInt_sshiftRight, BitVec.toInt_add, BitVec.toInt_ofInt, Int.bmod_add_bmod]
  rw [← hval]
  exact saturate_eq _

end KwsSoc.Conv1dAccel
