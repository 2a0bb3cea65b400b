import KwsSoc.Xip.FlashRun

/-! # Nibbles landing in a line

The capture registers for lines of any length. `landed nib d n` is the line `d` after `n` bytes of
the nibble stream `nib` have been written to it, one place after the other and from the first place
again when the index overflows; `landedWords` are the word bits set on the way. `Filled` says that
the capture registers hold this, and `Filled.step` that a running controller keeps it up with its
data ticks. -/

namespace KwsSoc.Xip

/-! ## The line -/

section Line

variable {w : ℕ} {nib nib' : ℕ → BitVec 4} {d : Line w} {n : ℕ}

/-- Byte `k` of a nibble stream. -/
def byteAt (nib : ℕ → BitVec 4) (k : ℕ) : BitVec 8 := nib (2 * k) ++ nib (2 * k + 1)

/-- **A line after `n` bytes.** -/
def landed (nib : ℕ → BitVec 4) (d : Line w) : ℕ → Line w
  | 0 => d
  | n + 1 => Function.update (landed nib d n) (BitVec.ofNat (w + 2) n) (byteAt nib n)

/-- The word bits after `n` bytes: byte `4 K + 3` sets bit `K`. -/
def landedWords (w : ℕ) : ℕ → BitVec w → Bool
  | 0 => fun _ => false
  | n + 1 =>
    if n % 4 = 3 then Function.update (landedWords w n) (BitVec.ofNat w (n / 4)) true
    else landedWords w n

/-- A place beyond the last byte is untouched. -/
theorem landed_of_le {j : BitVec (w + 2)} (hn : n ≤ j.toNat) : landed nib d n j = d j := by
  induction n with
  | zero => rfl
  | succ n ih =>
    have hj : j ≠ BitVec.ofNat (w + 2) n := by
      rintro rfl
      rw [BitVec.toNat_ofNat] at hn
      have := Nat.mod_le n (2 ^ (w + 2))
      omega
    rw [landed, Function.update_of_ne hj, ih (by omega)]

/-- **Each place holds the last byte that was written to it**: of the bytes `j`, `j + 2 ^ (w + 2)`,
`j + 2 * 2 ^ (w + 2)` and so on the last one below `n`. -/
theorem landed_eq {j : BitVec (w + 2)} {q : ℕ} (hlo : 2 ^ (w + 2) * q + j.toNat < n)
    (hhi : n ≤ 2 ^ (w + 2) * (q + 1) + j.toNat) :
    landed nib d n j = byteAt nib (2 ^ (w + 2) * q + j.toNat) := by
  induction n with
  | zero => exact absurd hlo (Nat.not_lt_zero _)
  | succ n ih =>
    rw [landed]
    rcases Nat.lt_succ_iff_lt_or_eq.mp hlo with hlt | rfl
    · have hne : j ≠ BitVec.ofNat (w + 2) n := by
        intro hj
        -- another byte for place `j` would come a whole line later
        have hmod : j.toNat = n % 2 ^ (w + 2) := by rw [hj, BitVec.toNat_ofNat]
        have hdiv := Nat.div_add_mod n (2 ^ (w + 2))
        rw [← hmod] at hdiv
        have hq : q < n / 2 ^ (w + 2) := by
          by_contra hle
          have := Nat.mul_le_mul_left (2 ^ (w + 2)) (Nat.le_of_not_lt hle)
          omega
        have := Nat.mul_le_mul_left (2 ^ (w + 2)) hq
        simp only [Nat.succ_eq_add_one] at this
        omega
      rw [Function.update_of_ne hne, ih hlt (by omega)]
    · have hj : j = BitVec.ofNat (w + 2) (2 ^ (w + 2) * q + j.toNat) := by
        apply BitVec.eq_of_toNat_eq
        rw [BitVec.toNat_ofNat, Nat.mul_add_mod_self_left, Nat.mod_eq_of_lt j.isLt]
      rw [← hj, Function.update_self]

/-- Within the first round byte `j` is at place `j`. -/
theorem landed_of_lt {j : BitVec (w + 2)} (hj : j.toNat < n) (hn : n ≤ 2 ^ (w + 2)) :
    landed nib d n j = byteAt nib j.toNat := by
  have hlo : 2 ^ (w + 2) * 0 + j.toNat < n := by omega
  have hhi : n ≤ 2 ^ (w + 2) * (0 + 1) + j.toNat := by omega
  rw [landed_eq hlo hhi, Nat.mul_zero, Nat.zero_add]

theorem pow_line (w : ℕ) : 2 ^ (w + 2) = 4 * 2 ^ w := by
  rw [Nat.pow_add, Nat.mul_comm]

/-- Within the first round the word bits are those of the complete words. -/
theorem landedWords_iff (hn : n ≤ 2 ^ (w + 2)) (k : BitVec w) :
    landedWords w n k = true ↔ 4 * k.toNat + 3 < n := by
  induction n with
  | zero => simp [landedWords]
  | succ n ih =>
    have hpow := pow_line w
    have hk := k.isLt
    rw [landedWords]
    split_ifs with h3
    · by_cases hkn : k = BitVec.ofNat w (n / 4)
      · have hnat : k.toNat = n / 4 := by
          rw [hkn, BitVec.toNat_ofNat, Nat.mod_eq_of_lt (by omega)]
        rw [← hkn, Function.update_self]
        simp only [true_iff]
        omega
      · have hne : k.toNat ≠ n / 4 := by
          intro hc
          exact hkn (by rw [← hc, BitVec.ofNat_toNat, BitVec.setWidth_eq])
        rw [Function.update_of_ne hkn, ih (by omega)]
        omega
    · rw [ih (by omega)]
      omega

end Line

/-! ## The capture registers -/

namespace FlashCtrl

variable {w : ℕ} {T : TrstCycles} {r : FlashCtrl w} {nib : ℕ → BitVec 4} {d : Line w} {t : ℕ}

/-- Ticks of the data phase that have passed. -/
def dataTicks (r : FlashCtrl w) : ℕ :=
  match r.state with
  | .idle | .doneWait => 128
  | .data => r.phaseTick.toNat
  | _ => 0

/-- **What the capture registers hold** after `t` ticks of the data phase: a byte takes four, and
its high nibble is there after two. -/
structure Filled (nib : ℕ → BitVec 4) (d : Line w) (t : ℕ) (r : FlashCtrl w) : Prop where
  byteIdx : r.byteIdx = BitVec.ofNat (w + 2) (t / 4)
  line : r.dataReg = landed nib d (t / 4)
  words : r.wordDone = landedWords w (t / 4)
  high : 2 ≤ t % 4 → r.dbyte.extractLsb' 4 4 = nib (2 * (t / 4))

/-- `start` empties them. -/
theorem filled_start (r : FlashCtrl w) (di : BitVec 4) :
    Filled nib r.dataReg 0 (r.step T true di) :=
  ⟨rfl, rfl, rfl, fun h => absurd h (by decide)⟩

/-- An even tick captures nothing. -/
theorem Filled.pass (h : Filled nib d t r) (ht : t % 2 = 0) : Filled nib d (t + 1) r := by
  obtain ⟨hb, hl, hw, hh⟩ := h
  have htt : (t + 1) / 4 = t / 4 := by omega
  rw [← htt] at hb hl hw hh
  exact ⟨hb, hl, hw, fun h2 => hh (by omega)⟩

/-- A tick in which a high nibble is captured. -/
theorem Filled.capture_high (h : Filled nib d t r) (hbit : r.phaseTick.getLsbD 1 = false)
    (ht : t % 4 = 1) {di : BitVec 4} (hdi : di = nib (t / 2)) :
    Filled nib d (t + 1) (r.capture di) := by
  obtain ⟨hb, hl, hw, -⟩ := h
  have htt : (t + 1) / 4 = t / 4 := by omega
  rw [capture, hbit, if_neg Bool.false_ne_true]
  refine ⟨by rw [htt]; exact hb, by rw [htt]; exact hl, by rw [htt]; exact hw, fun _ => ?_⟩
  rw [htt, show 2 * (t / 4) = t / 2 by omega, ← hdi]
  exact BitVec.extractLsb'_append_eq_left

/-- A tick in which a low nibble completes its byte. -/
theorem Filled.capture_low (h : Filled nib d t r) (hbit : r.phaseTick.getLsbD 1 = true)
    (ht : t % 4 = 3) {di : BitVec 4} (hdi : di = nib (t / 2)) :
    Filled nib d (t + 1) (r.capture di) := by
  obtain ⟨hb, hl, hw, hh⟩ := h
  have htt : (t + 1) / 4 = t / 4 + 1 := by omega
  have hpow := pow_line w
  have hmod : t / 4 % 2 ^ (w + 2) % 4 = t / 4 % 4 := by
    rw [hpow, Nat.mod_mul_right_mod]
  have hlow : r.byteIdx.extractLsb' 0 2 = 3#2 ↔ t / 4 % 4 = 3 := by
    rw [hb, ← BitVec.toNat_inj, BitVec.extractLsb'_toNat, BitVec.toNat_ofNat, Nat.shiftRight_zero]
    simp only [BitVec.toNat_ofNat]
    rw [show (2 : ℕ) ^ 2 = 4 by rfl, hmod]
  have hword : r.byteIdx.extractLsb' 2 w = BitVec.ofNat w (t / 4 / 4) := by
    apply BitVec.eq_of_toNat_eq
    rw [hb, BitVec.extractLsb'_toNat, BitVec.toNat_ofNat, BitVec.toNat_ofNat,
      Nat.shiftRight_eq_div_pow, show (2 : ℕ) ^ 2 = 4 by rfl, hpow, Nat.mod_mul_right_div_self,
      Nat.mod_mod]
  have hbyte : r.dbyte.extractLsb' 4 4 ++ di = byteAt nib (t / 4) := by
    rw [byteAt, hh (by omega), hdi, show t / 2 = 2 * (t / 4) + 1 by omega]
  rw [capture, hbit, if_pos rfl]
  refine ⟨?_, ?_, ?_, fun h2 => absurd h2 (by omega)⟩
  · simp only [hb, htt]
    exact (BitVec.ofNat_add (t / 4) 1).symm
  · simp only [hbyte, hb, hl, htt, landed]
  · simp only [hlow, hword, hw, htt, landedWords]

/-- An odd tick of `DATA` is the one that captures. -/
theorem stepData_capture (hs : r.state = .data) (ht : r.phaseTick.toNat % 2 = 1) (di : BitVec 4) :
    r.stepData false di = r.capture di := by
  rw [stepData, if_neg Bool.false_ne_true, if_pos ⟨hs, (getLsbD_zero_iff _).mpr ht⟩]

/-- Outside the odd ticks of `DATA` nothing is captured. -/
theorem stepData_idle (h : ¬ (r.state = .data ∧ r.phaseTick.toNat % 2 = 1)) (di : BitVec 4) :
    r.stepData false di = r := by
  rw [← getLsbD_zero_iff] at h
  rw [stepData, if_neg Bool.false_ne_true, if_neg h]

/-- The data ticks go on in `DATA` only. -/
theorem dataTicks_step (hin : r.InTick T) (start : Bool) (di : BitVec 4) :
    (r.step T start di).dataTicks =
      if r.state = .data then r.phaseTick.toNat + 1 else r.dataTicks := by
  have hcases := step_running hin start di
  cases hs : r.state
  case idle => exact absurd hs hin.1
  case data =>
    rw [hs] at hcases
    rcases hcases with ⟨hl, hs', -⟩ | ⟨-, hs', htk⟩
    · rw [dataTicks, hs', if_pos rfl, hl]
      rfl
    · rw [dataTicks, hs', if_pos rfl]
      exact htk
  all_goals
    rw [hs] at hcases
    rcases hcases with ⟨-, hs', htk⟩ | ⟨-, hs', -⟩
  case dummy.inl =>
    -- `DATA` begins with its first tick
    simp only [dataTicks, hs', hs, FState.succ, htk]
    rfl
  all_goals
    simp only [dataTicks, hs', hs, FState.succ]
    rfl

/-- **Step lemma for the capture registers**, whatever was in the line before: what comes in on odd
data ticks is the nibble stream. -/
theorem Filled.step (h : Filled nib d r.dataTicks r) (hin : r.InTick T) {di : BitVec 4}
    (hdi : r.state = .data → r.phaseTick.toNat % 2 = 1 → di = nib (r.phaseTick.toNat / 2)) :
    Filled nib d (r.step T false di).dataTicks (r.step T false di) := by
  rw [dataTicks_step hin]
  suffices hd : Filled nib d (if r.state = .data then r.phaseTick.toNat + 1 else r.dataTicks)
      (r.stepData false di) from ⟨hd.byteIdx, hd.line, hd.words, hd.high⟩
  by_cases hs : r.state = .data
  · have hticks : r.dataTicks = r.phaseTick.toNat := by rw [dataTicks, hs]
    rw [hticks] at h
    rw [if_pos hs]
    have hq : r.phaseTick.toNat % 2 = 0 ∨ r.phaseTick.toNat % 4 = 1 ∨
        r.phaseTick.toNat % 4 = 3 := by omega
    rcases hq with ht | ht | ht
    · rw [stepData_idle (by omega)]
      exact h.pass ht
    · have hbit : r.phaseTick.getLsbD 1 = false := by
        rw [Bool.eq_false_iff, ne_eq, getLsbD_one_iff]
        omega
      rw [stepData_capture hs (by omega)]
      exact h.capture_high hbit ht (hdi hs (by omega))
    · rw [stepData_capture hs (by omega)]
      exact h.capture_low ((getLsbD_one_iff _).mpr (by omega)) ht (hdi hs (by omega))
  · rw [stepData_idle (by simp [hs]), if_neg hs]
    exact h

/-- An idle controller keeps them. -/
theorem Filled.step_idle (h : Filled nib d r.dataTicks r) (hs : r.state = .idle) (di : BitVec 4) :
    Filled nib d (r.step T false di).dataTicks (r.step T false di) := by
  have hkeep := stepData_idle (r := r) (by simp [hs]) di
  have hticks : (r.step T false di).dataTicks = r.dataTicks := by
    rw [dataTicks, (idle_step hs di).1, dataTicks, hs]
  rw [hticks]
  suffices hd : Filled nib d r.dataTicks (r.stepData false di) from
    ⟨hd.byteIdx, hd.line, hd.words, hd.high⟩
  rw [hkeep]
  exact h

end FlashCtrl

end KwsSoc.Xip
