import Mathlib.Tactic

/-! # Bytes of 32-bit words

Byte lanes of a 32-bit word, little end first: `byteLane` reads a lane, `ofLanes` packs four
bytes and `setLane` overwrites one lane. -/

namespace ByteWord

/-- Lane `l` of a word: bits `8·l + 7 … 8·l`. -/
def byteLane (w : BitVec 32) (l : BitVec 2) : BitVec 8 := w.extractLsb' (8 * l.toNat) 8

/-- The word whose lanes are `b0, b1, b2, b3`, with `b0` in the least significant byte. -/
def ofLanes (b0 b1 b2 b3 : BitVec 8) : BitVec 32 := b3 ++ b2 ++ b1 ++ b0

/-- The word with lane `l` overwritten by `v`. -/
def setLane (w : BitVec 32) (l : BitVec 2) (v : BitVec 8) : BitVec 32 :=
  ofLanes (if l = 0#2 then v else byteLane w 0#2) (if l = 1#2 then v else byteLane w 1#2)
    (if l = 2#2 then v else byteLane w 2#2) (if l = 3#2 then v else byteLane w 3#2)

/-- A lane index is one of the four. -/
theorem lane_cases (l : BitVec 2) : l = 0#2 ∨ l = 1#2 ∨ l = 2#2 ∨ l = 3#2 := by
  revert l
  decide

/-- Bits of a packed word, lane by lane. -/
theorem getLsbD_ofLanes (b0 b1 b2 b3 : BitVec 8) (i : ℕ) :
    (ofLanes b0 b1 b2 b3).getLsbD i =
      if i < 8 then b0.getLsbD i else if i < 16 then b1.getLsbD (i - 8)
      else if i < 24 then b2.getLsbD (i - 16) else b3.getLsbD (i - 24) := by
  change @BitVec.getLsbD (8 + 8 + 8 + 8) (b3 ++ b2 ++ b1 ++ b0) i = _
  simp only [BitVec.getLsbD_append, Nat.sub_sub]
  split_ifs <;> first | rfl | omega

/-- A packed word as the bytes shifted to their places. -/
theorem ofLanes_eq_or (b0 b1 b2 b3 : BitVec 8) :
    ofLanes b0 b1 b2 b3 = b3.setWidth 32 <<< 24 ||| b2.setWidth 32 <<< 16 |||
      b1.setWidth 32 <<< 8 ||| b0.setWidth 32 := by
  apply BitVec.eq_of_getLsbD_eq
  intro i hi
  have hout (v : BitVec 8) {j : ℕ} (hj : 8 ≤ j) : v.getLsbD j = false := v.getLsbD_of_ge j hj
  rw [getLsbD_ofLanes]
  simp only [BitVec.getLsbD_or, BitVec.getLsbD_shiftLeft, BitVec.getLsbD_setWidth]
  -- by the lane that holds the bit: the bytes below it have run out
  by_cases h8 : i < 8
  · simp [h8, hi, show i < 24 by omega, show i < 16 by omega]
  by_cases h16 : i < 16
  · simp [h8, h16, hi, show i < 24 by omega, show i - 8 < 32 by omega, hout b0 (not_lt.mp h8)]
  by_cases h24 : i < 24
  · simp [h8, h16, h24, hi, show i - 16 < 32 by omega, hout b0 (not_lt.mp h8),
      hout b1 (show 8 ≤ i - 8 by omega)]
  · simp [h8, h16, h24, hi, show i - 24 < 32 by omega, hout b0 (not_lt.mp h8),
      hout b1 (show 8 ≤ i - 8 by omega), hout b2 (show 8 ≤ i - 16 by omega)]

@[simp] theorem byteLane_ofLanes_zero (b0 b1 b2 b3 : BitVec 8) :
    byteLane (ofLanes b0 b1 b2 b3) 0#2 = b0 := by
  apply BitVec.eq_of_getLsbD_eq
  intro i hi
  simp [byteLane, getLsbD_ofLanes, hi]

@[simp] theorem byteLane_ofLanes_one (b0 b1 b2 b3 : BitVec 8) :
    byteLane (ofLanes b0 b1 b2 b3) 1#2 = b1 := by
  apply BitVec.eq_of_getLsbD_eq
  intro i hi
  simp [byteLane, getLsbD_ofLanes, hi, show 8 + i < 16 by omega]

@[simp] theorem byteLane_ofLanes_two (b0 b1 b2 b3 : BitVec 8) :
    byteLane (ofLanes b0 b1 b2 b3) 2#2 = b2 := by
  apply BitVec.eq_of_getLsbD_eq
  intro i hi
  simp [byteLane, getLsbD_ofLanes, hi, show ¬ (16 + i < 8) by omega, show 16 + i < 24 by omega]

@[simp] theorem byteLane_ofLanes_three (b0 b1 b2 b3 : BitVec 8) :
    byteLane (ofLanes b0 b1 b2 b3) 3#2 = b3 := by
  apply BitVec.eq_of_getLsbD_eq
  intro i hi
  simp [byteLane, getLsbD_ofLanes, hi, show ¬ (24 + i < 8) by omega,
    show ¬ (24 + i < 16) by omega]

/-- Reading a lane after overwriting one: the new byte there, the old one elsewhere. -/
theorem byteLane_setLane (w : BitVec 32) (l m : BitVec 2) (v : BitVec 8) :
    byteLane (setLane w l v) m = if l = m then v else byteLane w m := by
  rcases lane_cases m with rfl | rfl | rfl | rfl <;> simp [setLane]

/-- A replicated byte reads the same in every lane. -/
@[simp] theorem byteLane_ofLanes_self (b : BitVec 8) (l : BitVec 2) :
    byteLane (ofLanes b b b b) l = b := by
  rcases lane_cases l with rfl | rfl | rfl | rfl <;> simp

end ByteWord
