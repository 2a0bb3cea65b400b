import KwsSoc.Accel.Datapath
import KwsSoc.Accel.Stall

/-! # The accelerator computes a 1-D convolution

The reference result (`Config.refOut`, the function `compute_reference` of the testbench) and the
proof that a run that sets DONE has stored it: the invariant `Seq.Inv` of the program says, phase
by phase, which bytes the buffers hold and that the memory is the original one with the outputs
of the positions already passed (`outMem`). `conv1d_correct` carries the result over to the
clocked accelerator on an always-ready slave. -/

namespace KwsSoc.Conv1dAccel

open ByteWord SyncMachine Finset

/-! ## The reference -/

/-- The `len` bytes from `base` on. -/
def region (base : BitVec 32) (len : ℕ) : Set (BitVec 32) :=
  {x | base.toNat ≤ x.toNat ∧ x.toNat < base.toNat + len}

namespace Config

/-- `K_w * C_in`: the length of a patch and of one channel's weights. -/
def taps (c : Config) : ℕ := c.rKW.toNat * c.rCIn.toNat

/-- `W_out = (W_in - K_w) / stride + 1`. -/
def wOut (c : Config) : ℕ := (c.rWIn.toNat - c.rKW.toNat) / c.rStride.toNat + 1

/-- Offset of the patch of position `w` in the input. -/
def patchOff (c : Config) (w : ℕ) : ℕ := w * c.rStride.toNat * c.rCIn.toNat

/-- Address of output `w, ch`. -/
def dstAddr (c : Config) (w ch : ℕ) : BitVec 32 :=
  c.rDstAddr + BitVec.ofNat 32 (w * c.rCOut.toNat + ch)

/-- The sum of products for position `w` and channel `ch`. -/
def refAcc (c : Config) (m : Mem) (w ch : ℕ) : ℤ :=
  ∑ n ∈ range c.taps, (m (c.rSrcAddr + BitVec.ofNat 32 (c.patchOff w + n))).toInt *
    (m (c.rWtAddr + BitVec.ofNat 32 (ch * c.taps + n))).toInt

/-- The bias of channel `ch`. -/
def refBias (c : Config) (m : Mem) (ch : ℕ) : ℤ :=
  (m.word (c.rBsAddr + BitVec.ofNat 32 (4 * ch))).toInt

/-- The shift of channel `ch`. -/
def refShift (c : Config) (m : Mem) (ch : ℕ) : ℕ :=
  (m (c.rShiftAddr + BitVec.ofNat 32 ch)).toNat % 32

/-- **The reference output**: sum plus bias as a signed 32-bit number, shifted and saturated. -/
def refOut (c : Config) (m : Mem) (w ch : ℕ) : BitVec 8 :=
  clip8 (Int.bmod (c.refAcc m w ch + c.refBias m ch) (2 ^ 32) >>> c.refShift m ch)

/-- The output bytes. -/
def dstRegion (c : Config) : Set (BitVec 32) := region c.rDstAddr (c.wOut * c.rCOut.toNat)

/-- **A shape the buffers hold**: a non-empty layer whose patches have at most 256 bytes. Nothing is
said about addresses. -/
structure Shape (c : Config) : Prop where
  cIn : 1 ≤ c.rCIn.toNat
  cOut : 1 ≤ c.rCOut.toNat
  kW : 1 ≤ c.rKW.toNat
  stride : 1 ≤ c.rStride.toNat
  kW_le : c.rKW.toNat ≤ c.rWIn.toNat
  taps_le : c.taps ≤ 256

/-- **A valid configuration**: non-empty shapes that fit the buffers, no region wraps around, and
the output is apart from everything that is read. -/
structure Valid (c : Config) : Prop where
  cIn : 1 ≤ c.rCIn.toNat
  cOut : 1 ≤ c.rCOut.toNat
  kW : 1 ≤ c.rKW.toNat
  stride : 1 ≤ c.rStride.toNat
  kW_le : c.rKW.toNat ≤ c.rWIn.toNat
  taps_le : c.taps ≤ 256
  src : c.rSrcAddr.toNat + c.rWIn.toNat * c.rCIn.toNat ≤ 2 ^ 32
  wt : c.rWtAddr.toNat + c.rCOut.toNat * c.taps ≤ 2 ^ 32
  bias : c.rBsAddr.toNat + 4 * c.rCOut.toNat ≤ 2 ^ 32
  shift : c.rShiftAddr.toNat + c.rCOut.toNat ≤ 2 ^ 32
  dst : c.rDstAddr.toNat + c.wOut * c.rCOut.toNat ≤ 2 ^ 32
  disjSrc : ∀ x ∈ c.dstRegion, x ∉ region c.rSrcAddr (c.rWIn.toNat * c.rCIn.toNat)
  disjWt : ∀ x ∈ c.dstRegion, x ∉ region c.rWtAddr (c.rCOut.toNat * c.taps)
  disjBias : ∀ x ∈ c.dstRegion, x ∉ region c.rBsAddr (4 * c.rCOut.toNat)
  disjShift : ∀ x ∈ c.dstRegion, x ∉ region c.rShiftAddr c.rCOut.toNat

theorem Valid.shape {c : Config} (hc : c.Valid) : c.Shape :=
  ⟨hc.cIn, hc.cOut, hc.kW, hc.stride, hc.kW_le, hc.taps_le⟩

end Config

/-! ## Addresses and loop bounds -/

theorem toNat_add_ofNat {base : BitVec 32} {len off : ℕ} (h : base.toNat + len ≤ 2 ^ 32)
    (ho : off < len) : (base + BitVec.ofNat 32 off).toNat = base.toNat + off := by
  rw [BitVec.toNat_add, BitVec.toNat_ofNat]
  omega

/-- A counter below another value moves on without wrapping. -/
theorem toNat_add_one_of_lt {w : ℕ} {i last : BitVec w} (h : i < last) :
    (i + 1#w).toNat = i.toNat + 1 := by
  have hi : i.toNat < last.toNat := h
  have hlast := last.isLt
  rw [BitVec.toNat_add, BitVec.toNat_ofNat, Nat.add_mod_mod, Nat.mod_eq_of_lt (by omega)]

theorem mem_region {base : BitVec 32} {len off : ℕ} (h : base.toNat + len ≤ 2 ^ 32)
    (ho : off < len) : base + BitVec.ofNat 32 off ∈ region base len := by
  have hx := toNat_add_ofNat h ho
  exact ⟨by omega, by omega⟩

namespace Config

variable {c : Config}

theorem taps_pos (hc : c.Shape) : 0 < c.taps := Nat.mul_pos hc.kW hc.cIn

theorem wOut_pos (c : Config) : 0 < c.wOut := Nat.succ_pos _

theorem wOut_le (hc : c.Shape) : c.wOut ≤ 65535 := by
  have h := hc.kW
  have hw := c.rWIn.isLt
  have hdiv := Nat.div_le_self (c.rWIn.toNat - c.rKW.toNat) c.rStride.toNat
  rw [wOut]
  omega

theorem toNat_patchBytes (hc : c.Shape) : c.patchBytes.toNat = c.taps := by
  have h := hc.taps_le
  have hk := c.rKW.isLt
  have hi := c.rCIn.isLt
  rw [taps] at h
  rw [patchBytes, BitVec.toNat_mul, BitVec.toNat_setWidth, BitVec.toNat_setWidth,
    Nat.mod_eq_of_lt (by omega : c.rKW.toNat < 2 ^ 16),
    Nat.mod_eq_of_lt (by omega : c.rCIn.toNat < 2 ^ 16), Nat.mod_eq_of_lt (by omega), taps]

theorem toNat_patchWords (hc : c.Shape) : c.patchWords.toNat = (c.taps + 3) / 4 % 64 := by
  have h := hc.taps_le
  have hk := c.rKW.isLt
  have hi := c.rCIn.isLt
  rw [taps] at h
  rw [patchWords, BitVec.toNat_setWidth, BitVec.toNat_ushiftRight, BitVec.toNat_add,
    BitVec.toNat_mul, BitVec.toNat_setWidth, BitVec.toNat_setWidth,
    Nat.mod_eq_of_lt (by omega : c.rKW.toNat < 2 ^ 32),
    Nat.mod_eq_of_lt (by omega : c.rCIn.toNat < 2 ^ 32),
    Nat.mod_eq_of_lt (by omega : c.rKW.toNat * c.rCIn.toNat < 2 ^ 32), BitVec.toNat_ofNat,
    Nat.shiftRight_eq_div_pow, taps]
  norm_num
  omega

/-- The word loops run over the words of a patch. -/
theorem wordRounds_eq (hc : c.Shape) : c.wordRounds = (c.taps + 3) / 4 := by
  have h := hc.taps_le
  have h0 := taps_pos hc
  rw [wordRounds, BitVec.toNat_sub, toNat_patchWords hc]
  simp only [BitVec.toNat_ofNat]
  omega

/-- The input loads fill at least the words of a patch. -/
theorem le_loadRounds (hc : c.Shape) : (c.taps + 3) / 4 ≤ c.loadRounds := by
  have h := hc.taps_le
  have h0 := taps_pos hc
  rw [loadRounds, BitVec.toNat_sub, BitVec.toNat_setWidth, toNat_patchWords hc]
  simp only [BitVec.toNat_ofNat]
  omega

/-- The byte loop runs over the bytes of a patch. -/
theorem byteRounds_eq (hc : c.Shape) : c.byteRounds = c.taps := by
  have h := hc.taps_le
  have h0 := taps_pos hc
  rw [byteRounds, BitVec.toNat_sub, toNat_patchBytes hc]
  simp only [BitVec.toNat_ofNat]
  omega

theorem toNat_wOutCnt (hc : c.Shape) : c.wOutCnt.toNat = c.wOut := by
  have hle := wOut_le hc
  have hk := c.rKW.isLt
  have hs := c.rStride.isLt
  have hkw : (c.rKW.setWidth 16).toNat = c.rKW.toNat := by
    rw [BitVec.toNat_setWidth, Nat.mod_eq_of_lt (by omega)]
  have hst : (c.rStride.setWidth 16).toNat = c.rStride.toNat := by
    rw [BitVec.toNat_setWidth, Nat.mod_eq_of_lt (by omega)]
  rw [wOut] at hle
  rw [wOutCnt, BitVec.toNat_add, BitVec.toNat_udiv,
    BitVec.toNat_sub_of_le (by rw [BitVec.le_def, hkw]; exact hc.kW_le), hkw, hst, wOut,
    BitVec.toNat_ofNat, Nat.mod_eq_of_lt (by decide : 1 < 2 ^ 16), Nat.mod_eq_of_lt (by omega)]

/-- The last position, as the FSM tests it. -/
theorem lt_wOutCnt_sub_one (hc : c.Shape) (w : BitVec 16) :
    w < c.wOutCnt - 1#16 ↔ w.toNat + 1 < c.wOut := by
  have h1 : 1 ≤ c.wOut := Nat.le_add_left 1 _
  have hlt := c.wOutCnt.isLt
  rw [toNat_wOutCnt hc] at hlt
  rw [BitVec.lt_def, BitVec.toNat_sub, toNat_wOutCnt hc, BitVec.toNat_ofNat]
  omega

/-- The last channel, as the FSM tests it. -/
theorem lt_cOut_sub_one (hc : c.Shape) (ch : BitVec 8) :
    ch < c.rCOut - 1#8 ↔ ch.toNat + 1 < c.rCOut.toNat := by
  have h1 := hc.cOut
  have hlt := c.rCOut.isLt
  rw [BitVec.lt_def, BitVec.toNat_sub, BitVec.toNat_ofNat]
  omega

theorem patchAddr_eq (c : Config) (w : BitVec 16) :
    c.patchAddr w = c.rSrcAddr + BitVec.ofNat 32 (c.patchOff w.toNat) := by
  rw [patchAddr, patchOff, BitVec.ofNat_mul, BitVec.ofNat_mul, BitVec.ofNat_toNat,
    BitVec.ofNat_toNat, BitVec.ofNat_toNat]

theorem wtAddr_eq (hc : c.Valid) (ch : BitVec 8) :
    c.wtAddr ch = c.rWtAddr + BitVec.ofNat 32 (ch.toNat * c.taps) := by
  rw [wtAddr, BitVec.ofNat_mul, BitVec.ofNat_toNat, ← toNat_patchBytes hc.shape, BitVec.ofNat_toNat]

theorem biasAddr_eq (c : Config) (ch : BitVec 8) :
    c.biasAddr ch = c.rBsAddr + BitVec.ofNat 32 (4 * ch.toNat) := by
  rw [biasAddr, Nat.mul_comm, BitVec.ofNat_mul, BitVec.ofNat_toNat]

theorem shiftAddr_eq (c : Config) (ch : BitVec 8) :
    c.shiftAddr ch = c.rShiftAddr + BitVec.ofNat 32 ch.toNat := by
  rw [shiftAddr, BitVec.ofNat_toNat]

theorem outAddr_eq (c : Config) (w : BitVec 16) (ch : BitVec 8) :
    c.outAddr w ch = c.dstAddr w.toNat ch.toNat := by
  rw [outAddr, dstAddr, BitVec.ofNat_add, BitVec.ofNat_mul, BitVec.ofNat_toNat, BitVec.ofNat_toNat,
    BitVec.ofNat_toNat, BitVec.add_assoc]

/-- The patch of a position lies in the input. -/
theorem patchOff_add_lt (hc : c.Valid) {w n : ℕ} (hw : w < c.wOut) (hn : n < c.taps) :
    c.patchOff w + n < c.rWIn.toNat * c.rCIn.toNat := by
  have hk := hc.kW_le
  have hdiv := Nat.div_mul_le_self (c.rWIn.toNat - c.rKW.toNat) c.rStride.toNat
  have hw' : w ≤ (c.rWIn.toNat - c.rKW.toNat) / c.rStride.toNat := Nat.lt_succ_iff.mp hw
  have hws : w * c.rStride.toNat + c.rKW.toNat ≤ c.rWIn.toNat := by
    have := Nat.mul_le_mul_right c.rStride.toNat hw'
    omega
  calc c.patchOff w + n < w * c.rStride.toNat * c.rCIn.toNat + c.rKW.toNat * c.rCIn.toNat :=
        Nat.add_lt_add_left hn _
    _ = (w * c.rStride.toNat + c.rKW.toNat) * c.rCIn.toNat := by ring
    _ ≤ c.rWIn.toNat * c.rCIn.toNat := Nat.mul_le_mul_right _ hws

/-- The weights of a channel lie in the weight region. -/
theorem channel_add_lt (c : Config) {ch n : ℕ} (hch : ch < c.rCOut.toNat) (hn : n < c.taps) :
    ch * c.taps + n < c.rCOut.toNat * c.taps := by
  calc ch * c.taps + n < ch * c.taps + c.taps := Nat.add_lt_add_left hn _
    _ = (ch + 1) * c.taps := by ring
    _ ≤ c.rCOut.toNat * c.taps := Nat.mul_le_mul_right _ hch

/-- Outputs lie in the output region. -/
theorem out_add_lt (c : Config) {w ch : ℕ} (hw : w < c.wOut) (hch : ch < c.rCOut.toNat) :
    w * c.rCOut.toNat + ch < c.wOut * c.rCOut.toNat := by
  calc w * c.rCOut.toNat + ch < w * c.rCOut.toNat + c.rCOut.toNat := Nat.add_lt_add_left hch _
    _ = (w + 1) * c.rCOut.toNat := by ring
    _ ≤ c.wOut * c.rCOut.toNat := Nat.mul_le_mul_right _ hw

end Config

/-! ## The memory as outputs are stored -/

/-- The memory after the first `k` outputs have been stored, channel by channel. -/
def outMem (c : Config) (m : Mem) : ℕ → Mem
  | 0 => m
  | k + 1 => (outMem c m k).set (c.dstAddr (k % c.wOut) (k / c.wOut))
      (c.refOut m (k % c.wOut) (k / c.wOut))

section OutMem

variable {c : Config}

/-- The `k`-th output belongs to a channel and a position of the layer. -/
theorem div_lt_cOut {k : ℕ} (hk : k < c.rCOut.toNat * c.wOut) : k / c.wOut < c.rCOut.toNat :=
  Nat.div_lt_of_lt_mul (by rwa [Nat.mul_comm] at hk)

theorem mod_lt_wOut (c : Config) (k : ℕ) : k % c.wOut < c.wOut := Nat.mod_lt _ c.wOut_pos

theorem dstAddr_mem (hc : c.Valid) {w ch : ℕ} (hw : w < c.wOut) (hch : ch < c.rCOut.toNat) :
    c.dstAddr w ch ∈ c.dstRegion :=
  mem_region hc.dst (c.out_add_lt hw hch)

/-- Different outputs have different addresses. -/
theorem dstAddr_inj (hc : c.Valid) {w ch w' ch' : ℕ} (hw : w < c.wOut) (hch : ch < c.rCOut.toNat)
    (hw' : w' < c.wOut) (hch' : ch' < c.rCOut.toNat) (h : c.dstAddr w ch = c.dstAddr w' ch') :
    w = w' ∧ ch = ch' := by
  have hnat := congrArg BitVec.toNat h
  rw [Config.dstAddr, Config.dstAddr, toNat_add_ofNat hc.dst (c.out_add_lt hw hch),
    toNat_add_ofNat hc.dst (c.out_add_lt hw' hch')] at hnat
  have hsum : ch + c.rCOut.toNat * w = ch' + c.rCOut.toNat * w' := by
    rw [Nat.mul_comm _ w, Nat.mul_comm _ w']
    omega
  have hmod := congrArg (· % c.rCOut.toNat) hsum
  simp only [Nat.add_mul_mod_self_left, Nat.mod_eq_of_lt hch, Nat.mod_eq_of_lt hch'] at hmod
  subst hmod
  exact ⟨Nat.eq_of_mul_eq_mul_left hc.cOut (Nat.add_left_cancel hsum), rfl⟩

/-- Outside the output region the memory is the original one. -/
theorem outMem_of_notMem (hc : c.Valid) (m : Mem) {x : BitVec 32} (hx : x ∉ c.dstRegion) {k : ℕ}
    (hk : k ≤ c.rCOut.toNat * c.wOut) : outMem c m k x = m x := by
  induction k with
  | zero => rfl
  | succ k ih =>
    have hne : x ≠ c.dstAddr (k % c.wOut) (k / c.wOut) := fun h =>
      hx (h ▸ dstAddr_mem hc (mod_lt_wOut c k) (div_lt_cOut hk))
    rw [outMem, Mem.set, if_neg hne, ih (Nat.le_of_succ_le hk)]

/-- Outputs already stored stay. -/
theorem outMem_dstAddr (hc : c.Valid) (m : Mem) {j k : ℕ} (hj : j < k)
    (hk : k ≤ c.rCOut.toNat * c.wOut) :
    outMem c m k (c.dstAddr (j % c.wOut) (j / c.wOut)) =
      c.refOut m (j % c.wOut) (j / c.wOut) := by
  induction k with
  | zero => cases hj
  | succ k ih =>
    rw [outMem, Mem.set]
    split_ifs with h
    · obtain ⟨hw, hch⟩ := dstAddr_inj hc (mod_lt_wOut c j) (div_lt_cOut (hj.trans_le hk))
        (mod_lt_wOut c k) (div_lt_cOut hk) h
      rw [hw, hch]
    · rcases Nat.lt_succ_iff_lt_or_eq.mp hj with hlt | rfl
      · exact ih hlt (Nat.le_of_succ_le hk)
      · exact absurd rfl h

end OutMem

/-! ## The invariant of the program -/

namespace Seq

/-- Number of outputs stored before the current position. -/
def index (c : Config) (a : Seq) : ℕ := a.cPos.toNat * c.wOut + a.wPos.toNat

/-- The counters are in range, and `k` outputs are stored. -/
structure Loop (c : Config) (m : Mem) (a : Seq) (k : ℕ) : Prop where
  cPos : a.cPos.toNat < c.rCOut.toNat
  wPos : a.wPos.toNat < c.wOut
  mem : a.mem = outMem c m k

/-- The weight buffer holds the weights of the channel, followed by zeros. -/
def WtOk (c : Config) (m : Mem) (a : Seq) : Prop :=
  ∀ k < 4 * ((c.taps + 3) / 4), a.wtBuf.byte k =
    if k < c.taps then m (c.rWtAddr + BitVec.ofNat 32 (a.cPos.toNat * c.taps + k)) else 0

/-- The bias of the channel is loaded. -/
def BiasOk (c : Config) (m : Mem) (a : Seq) : Prop :=
  a.biasVal.toInt = c.refBias m a.cPos.toNat

/-- The shift of the channel is loaded. -/
def ShiftOk (c : Config) (m : Mem) (a : Seq) : Prop :=
  a.curShift.toNat = c.refShift m a.cPos.toNat

/-- Buffer `s` holds the patch of position `w`. -/
def InOk (c : Config) (m : Mem) (a : Seq) (s : Bool) (w : ℕ) : Prop :=
  ∀ k < c.taps, (a.inBuf s).byte k = m (c.rSrcAddr + BitVec.ofNat 32 (c.patchOff w + k))

/-- **The invariant**, phase by phase. -/
def Inv (c : Config) (m : Mem) (a : Seq) : Prop :=
  match a.phase with
  | .weights => Loop c m a (a.index c) ∧ a.wPos = 0
  | .bias => Loop c m a (a.index c) ∧ a.wPos = 0 ∧ WtOk c m a
  | .shift => Loop c m a (a.index c) ∧ a.wPos = 0 ∧ WtOk c m a ∧ BiasOk c m a
  | .input => Loop c m a (a.index c) ∧ a.wPos = 0 ∧ WtOk c m a ∧ BiasOk c m a ∧ ShiftOk c m a ∧
      a.acc = 0
  | .ovlp => Loop c m a (a.index c) ∧ WtOk c m a ∧ BiasOk c m a ∧ ShiftOk c m a ∧ a.acc = 0 ∧
      InOk c m a a.bufSel a.wPos.toNat ∧ a.wPos.toNat + 1 < c.wOut ∧
      a.loadAddr = c.rSrcAddr + BitVec.ofNat 32 (c.patchOff (a.wPos.toNat + 1))
  | .mac => Loop c m a (a.index c) ∧ WtOk c m a ∧ BiasOk c m a ∧ ShiftOk c m a ∧ a.acc = 0 ∧
      InOk c m a a.bufSel a.wPos.toNat ∧ a.wPos.toNat + 1 = c.wOut
  | .write => Loop c m a (a.index c) ∧ WtOk c m a ∧ BiasOk c m a ∧ ShiftOk c m a ∧
      a.acc = BitVec.ofInt 32 (c.refAcc m a.wPos.toNat a.cPos.toNat) ∧
      (a.wPos.toNat + 1 < c.wOut → InOk c m a (!a.bufSel) (a.wPos.toNat + 1))
  | .advance => Loop c m a (a.index c + 1) ∧ WtOk c m a ∧ BiasOk c m a ∧ ShiftOk c m a ∧
      (a.wPos.toNat + 1 < c.wOut → InOk c m a (!a.bufSel) (a.wPos.toNat + 1))
  | .finished => a.mem = outMem c m (c.rCOut.toNat * c.wOut)

section Steps

variable {c : Config} {m : Mem} {a : Seq}

theorem index_lt {k : ℕ} (h : Loop c m a k) : a.index c < c.rCOut.toNat * c.wOut := by
  have hw := h.wPos
  calc a.index c < a.cPos.toNat * c.wOut + c.wOut := Nat.add_lt_add_left hw _
    _ = (a.cPos.toNat + 1) * c.wOut := by ring
    _ ≤ c.rCOut.toNat * c.wOut := Nat.mul_le_mul_right _ h.cPos

/-- What is read outside the output region is the original memory. -/
theorem Loop.read (hc : c.Valid) {k : ℕ} (h : Loop c m a k) (hk : k ≤ c.rCOut.toNat * c.wOut)
    {base : BitVec 32} {len off : ℕ} (hd : ∀ x ∈ c.dstRegion, x ∉ region base len)
    (hb : base.toNat + len ≤ 2 ^ 32) (ho : off < len) :
    a.mem (base + BitVec.ofNat 32 off) = m (base + BitVec.ofNat 32 off) := by
  rw [h.mem]
  exact outMem_of_notMem hc m (fun hx => hd _ hx (mem_region hb ho)) hk

/-- The weight phase fills the weight buffer, or goes round for ever. -/
theorem inv_weights (hc : c.Valid) (hp : a.phase = .weights) (h : Inv c m a) :
    Inv c m (a.weights c) := by
  have hi := h
  rw [Inv, hp] at h
  obtain ⟨hl, hw0⟩ := h
  have htaps := hc.taps_le
  have hread : ∀ k < c.taps, a.mem (c.wtAddr a.cPos + BitVec.ofNat 32 k) =
      m (c.rWtAddr + BitVec.ofNat 32 (a.cPos.toNat * c.taps + k)) := by
    intro k hk
    rw [Config.wtAddr_eq hc, BitVec.add_assoc, ← BitVec.ofNat_add]
    exact hl.read hc (index_lt hl).le hc.disjWt hc.wt (c.channel_add_lt hl.cPos hk)
  rw [weights]
  split_ifs with hpath hends
  · have hdvd : c.taps % 4 = 0 := by
      have := congrArg BitVec.toNat hpath.2
      rw [BitVec.extractLsb'_toNat, Config.toNat_patchBytes hc.shape] at this
      simpa using this
    refine ⟨⟨hl.cPos, hl.wPos, hl.mem⟩, hw0, fun k hk => ?_⟩
    rw [if_pos (by omega), ← hread k (by omega), Config.wordRounds_eq hc.shape]
    exact byte_loadWords _ _ _ hk (by omega)
  · refine ⟨⟨hl.cPos, hl.wPos, hl.mem⟩, hw0, fun k hk => ?_⟩
    have h128 : c.taps ≤ 128 := by
      rw [← Config.byteRounds_eq hc.shape]
      exact hends
    rw [byte_loadBytes _ _ _ _ (by omega), Config.byteRounds_eq hc.shape]
    refine if_ctx_congr Iff.rfl (fun hlt => hread k hlt) (fun hge => ?_)
    -- the tail of the last word is what zeroing it left
    apply byte_write_zero _ (by omega)
    rw [BitVec.toNat_sub, BitVec.toNat_setWidth, Config.toNat_patchWords hc.shape]
    simp only [BitVec.toNat_ofNat]
    omega
  · exact hi

/-- The bias phase reads the bias. -/
theorem inv_bias (hc : c.Valid) (hp : a.phase = .bias) (h : Inv c m a) : Inv c m (a.bias c) := by
  rw [Inv, hp] at h
  obtain ⟨hl, hw0, hwt⟩ := h
  refine ⟨⟨hl.cPos, hl.wPos, hl.mem⟩, hw0, hwt, ?_⟩
  have hread : ∀ j < 4, a.mem (c.rBsAddr + BitVec.ofNat 32 (4 * a.cPos.toNat + j)) =
      m (c.rBsAddr + BitVec.ofNat 32 (4 * a.cPos.toNat + j)) := fun j hj =>
    hl.read hc (index_lt hl).le hc.disjBias hc.bias (by have := hl.cPos; omega)
  have h0 := hread 0 (by decide)
  have h1 := hread 1 (by decide)
  have h2 := hread 2 (by decide)
  have h3 := hread 3 (by decide)
  simp only [BitVec.ofNat_add, ← BitVec.add_assoc] at h0 h1 h2 h3
  rw [BiasOk, bias, Config.refBias, Config.biasAddr_eq, Mem.word, Mem.word]
  simp only [BitVec.ofNat_eq_ofNat, BitVec.add_zero] at *
  rw [h0, h1, h2, h3]

/-- The shift phase reads the shift. -/
theorem inv_shift (hc : c.Valid) (hp : a.phase = .shift) (h : Inv c m a) : Inv c m (a.shift c) := by
  rw [Inv, hp] at h
  obtain ⟨hl, hw0, hwt, hb⟩ := h
  refine ⟨⟨hl.cPos, hl.wPos, hl.mem⟩, hw0, hwt, hb, ?_, rfl⟩
  rw [ShiftOk, shift, Config.refShift, Config.shiftAddr_eq,
    hl.read hc (index_lt hl).le hc.disjShift hc.shift hl.cPos, BitVec.toNat_setWidth]

/-- A word load from the patch of a position fills the buffer with that patch. -/
theorem inOk_load (hc : c.Valid) {k w : ℕ} (hl : Loop c m a k) (hk : k ≤ c.rCOut.toNat * c.wOut)
    (hw : w < c.wOut) (b : WordBuf) {n : ℕ} (hn : n < c.taps) :
    (loadWords a.mem (c.rSrcAddr + BitVec.ofNat 32 (c.patchOff w)) b c.loadRounds).byte n =
      m (c.rSrcAddr + BitVec.ofNat 32 (c.patchOff w + n)) := by
  have htaps := hc.taps_le
  have hrounds := Config.le_loadRounds hc.shape
  rw [byte_loadWords _ _ _ (by omega) (by omega), BitVec.add_assoc, ← BitVec.ofNat_add]
  exact hl.read hc hk hc.disjSrc hc.src (Config.patchOff_add_lt hc hw hn)

/-- The input phase loads the first patch of a channel. -/
theorem inv_input (hc : c.Valid) (hp : a.phase = .input) (h : Inv c m a) : Inv c m (a.input c) := by
  rw [Inv, hp] at h
  obtain ⟨hl, hw0, hwt, hb, hs, hacc⟩ := h
  have hin : InOk c m (a.input c) a.bufSel a.wPos.toNat := by
    intro k hk
    change (Function.update a.inBuf a.bufSel _ a.bufSel).byte k = _
    rw [Function.update_self, Config.patchAddr_eq]
    exact inOk_load hc hl (index_lt hl).le hl.wPos _ hk
  have hl' : Loop c m (a.input c) (a.index c) := ⟨hl.cPos, hl.wPos, hl.mem⟩
  have h1 : 1#16 < c.wOutCnt ↔ 1 < c.wOut := by
    rw [BitVec.lt_def, Config.toNat_wOutCnt hc.shape]
    rfl
  have hw0' : a.wPos.toNat = 0 := by
    rw [hw0]
    rfl
  by_cases ho : 1#16 < c.wOutCnt
  · have hph : (a.input c).phase = .ovlp := if_pos ho
    rw [Inv, hph]
    refine ⟨hl', hwt, hb, hs, hacc, hin, ?_, ?_⟩
    · have := h1.mp ho
      change a.wPos.toNat + 1 < c.wOut
      omega
    · change c.rSrcAddr + c.patchStep = c.rSrcAddr + BitVec.ofNat 32 (c.patchOff (a.wPos.toNat + 1))
      rw [hw0', Config.patchStep, Config.patchOff, Nat.zero_add, Nat.one_mul, BitVec.ofNat_mul,
        BitVec.ofNat_toNat, BitVec.ofNat_toNat]
  · have hph : (a.input c).phase = .mac := if_neg ho
    rw [Inv, hph]
    refine ⟨hl', hwt, hb, hs, hacc, hin, ?_⟩
    have h2 := hl.wPos
    have h3 : ¬ 1 < c.wOut := fun h => ho (h1.mpr h)
    change a.wPos.toNat + 1 = c.wOut
    omega

/-- **The multiply phase computes the sum of products.** -/
theorem macAcc_eq (hc : c.Valid) (hwt : WtOk c m a) (hacc : a.acc = 0)
    (hin : InOk c m a a.bufSel a.wPos.toNat) :
    a.macAcc c = BitVec.ofInt 32 (c.refAcc m a.wPos.toNat a.cPos.toNat) := by
  have hp : c.taps ≤ 4 * ((c.taps + 3) / 4) := by omega
  have hz : ∀ k, c.taps ≤ k → k < 4 * ((c.taps + 3) / 4) → a.wtBuf.byte k = 0 := by
    intro k hk hk'
    rw [hwt k hk', if_neg (by omega)]
  rw [macAcc, hacc, macSum_eq, Config.wordRounds_eq hc.shape, sum_byte_eq _ _ hp hz, Config.refAcc]
  simp only [BitVec.ofNat_eq_ofNat, BitVec.zero_add]
  congr 1
  apply sum_congr rfl
  intro k hk
  have hk' := mem_range.mp hk
  rw [hin k hk', hwt k (by omega), if_pos hk']

/-- The overlapped phase multiplies and loads the next patch. -/
theorem inv_ovlp (hc : c.Valid) (hp : a.phase = .ovlp) (h : Inv c m a) : Inv c m (a.ovlp c) := by
  rw [Inv, hp] at h
  obtain ⟨hl, hwt, hb, hs, hacc, hin, hlt, haddr⟩ := h
  refine ⟨⟨hl.cPos, hl.wPos, hl.mem⟩, hwt, hb, hs, macAcc_eq hc hwt hacc hin, fun _ k hk => ?_⟩
  change (Function.update a.inBuf (!a.bufSel) _ (!a.bufSel)).byte k = _
  rw [Function.update_self, haddr]
  exact inOk_load hc hl (index_lt hl).le hlt _ hk

/-- The multiply phase of the last position. -/
theorem inv_mac (hc : c.Valid) (hp : a.phase = .mac) (h : Inv c m a) : Inv c m (a.mac c) := by
  rw [Inv, hp] at h
  obtain ⟨hl, hwt, hb, hs, hacc, hin, hlast⟩ := h
  refine ⟨⟨hl.cPos, hl.wPos, hl.mem⟩, hwt, hb, hs, macAcc_eq hc hwt hacc hin, fun hlt => ?_⟩
  exact absurd hlt hlast.not_lt

/-- The write phase stores one more output. -/
theorem inv_write (hp : a.phase = .write) (h : Inv c m a) : Inv c m (a.write c) := by
  rw [Inv, hp] at h
  obtain ⟨hl, hwt, hb, hs, hacc, hin⟩ := h
  refine ⟨⟨hl.cPos, hl.wPos, ?_⟩, hwt, hb, hs, hin⟩
  have hmod : a.index c % c.wOut = a.wPos.toNat := by
    rw [index, Nat.mul_comm, Nat.mul_add_mod, Nat.mod_eq_of_lt hl.wPos]
  have hdiv : a.index c / c.wOut = a.cPos.toNat := by
    rw [index, Nat.mul_comm, Nat.mul_add_div c.wOut_pos, Nat.div_eq_of_lt hl.wPos,
      Nat.add_zero]
  change a.mem.set _ _ = outMem c m (a.index c + 1)
  rw [outMem, hmod, hdiv, hl.mem, hacc, clipped_eq, hb, hs, Config.outAddr_eq, Config.refOut]

/-- Moving on keeps the invariant: the loaded buffer becomes the active one. -/
theorem inv_advance (hc : c.Valid) (hp : a.phase = .advance) (h : Inv c m a) :
    Inv c m (a.advance c) := by
  rw [Inv, hp] at h
  obtain ⟨hl, hwt, hb, hs, hin⟩ := h
  have hwp := hl.wPos
  rw [advance]
  by_cases h1 : a.wPos < c.wOutCnt - 1#16
  · have hlt := (Config.lt_wOutCnt_sub_one hc.shape _).mp h1
    have hnext : (a.wPos + 1#16).toNat = a.wPos.toNat + 1 := toNat_add_one_of_lt h1
    have hl' : ∀ p A, Loop c m { a with
        wPos := a.wPos + 1#16, acc := 0, bufSel := !a.bufSel, loadAddr := A, phase := p }
        (a.cPos.toNat * c.wOut + (a.wPos + 1#16).toNat) := fun p A =>
      ⟨hl.cPos, by rw [hnext]; exact hlt, by rw [hnext]; exact hl.mem⟩
    have hin' := hin hlt
    rw [← hnext] at hin'
    rw [if_pos h1]
    by_cases h2 : a.wPos + 1#16 < c.wOutCnt - 1#16
    · have hlt2 := (Config.lt_wOutCnt_sub_one hc.shape _).mp h2
      rw [if_pos h2]
      refine ⟨hl' _ _, hwt, hb, hs, rfl, hin', hlt2, ?_⟩
      change c.rSrcAddr + _ = c.rSrcAddr + _
      rw [hnext, Config.patchOff, BitVec.ofNat_mul, BitVec.ofNat_mul, BitVec.ofNat_toNat,
        BitVec.ofNat_toNat, BitVec.ofNat_add, BitVec.ofNat_add, BitVec.ofNat_toNat,
        BitVec.add_assoc]
      rfl
    · rw [if_neg h2]
      refine ⟨hl' _ _, hwt, hb, hs, rfl, hin', ?_⟩
      have hnlt := mt (Config.lt_wOutCnt_sub_one hc.shape _).mpr h2
      change (a.wPos + 1#16).toNat + 1 = c.wOut
      omega
  · have hnlt := mt (Config.lt_wOutCnt_sub_one hc.shape _).mpr h1
    have hlast : a.wPos.toNat + 1 = c.wOut := by omega
    have hmem : a.mem = outMem c m ((a.cPos.toNat + 1) * c.wOut) := by
      rw [hl.mem, index, Nat.add_assoc, hlast, Nat.succ_mul]
    rw [if_neg h1]
    by_cases h2 : a.cPos < c.rCOut - 1#8
    · have hlt := (Config.lt_cOut_sub_one hc.shape _).mp h2
      have hnext : (a.cPos + 1#8).toNat = a.cPos.toNat + 1 := toNat_add_one_of_lt h2
      rw [if_pos h2]
      refine ⟨⟨?_, Nat.succ_pos _, ?_⟩, rfl⟩
      · change (a.cPos + 1#8).toNat < _
        omega
      · change a.mem = outMem c m ((a.cPos + 1#8).toNat * c.wOut + 0)
        rw [hnext]
        exact hmem
    · rw [if_neg h2]
      have hcp := hl.cPos
      have hnlt' := mt (Config.lt_cOut_sub_one hc.shape _).mpr h2
      change a.mem = outMem c m (c.rCOut.toNat * c.wOut)
      rw [hmem, show a.cPos.toNat + 1 = c.rCOut.toNat by omega]

/-- **Step lemma**: every step of the program keeps the invariant. -/
theorem Inv.step (hc : c.Valid) (h : Inv c m a) : Inv c m (a.step c) := by
  cases hp : a.phase with
  | weights =>
    rw [Seq.step_of_weights hp]
    exact inv_weights hc hp h
  | bias =>
    rw [Seq.step_of_bias hp]
    exact inv_bias hc hp h
  | shift =>
    rw [Seq.step_of_shift hp]
    exact inv_shift hc hp h
  | input =>
    rw [Seq.step_of_input hp]
    exact inv_input hc hp h
  | ovlp =>
    rw [Seq.step_of_ovlp hp]
    exact inv_ovlp hc hp h
  | mac =>
    rw [Seq.step_of_mac hp]
    exact inv_mac hc hp h
  | write =>
    rw [Seq.step_of_write hp]
    exact inv_write hp h
  | advance =>
    rw [Seq.step_of_advance hp]
    exact inv_advance hc hp h
  | finished =>
    rw [Seq.step_of_finished hp]
    exact h

/-- **Run lemma**: the invariant holds along the program. -/
theorem Inv.iterate (hc : c.Valid) (h : Inv c m a) (n : ℕ) : Inv c m ((Seq.step c)^[n] a) := by
  induction n with
  | zero => exact h
  | succ n ih =>
    rw [Function.iterate_succ_apply']
    exact ih.step hc

/-- The program starts with no output stored. -/
theorem inv_start {b : Bench} (hc : c.Valid) : Inv c b.slave.mem (Seq.start b) :=
  ⟨⟨hc.cOut, Nat.succ_pos _, by simp [index, start, outMem]⟩, rfl⟩

end Steps

end Seq

/-! ## The clocked accelerator -/

/-- **Functional correctness.** A run from a START on an always-ready slave that sets DONE has
stored the reference output of every position and channel, and no other byte has changed. -/
theorem conv1d_correct {b : Bench} {i : ℕ → BenchIn} {n : ℕ} (hq : b.Quiescent) (hi : StartRun i)
    (hready : ∀ k, (i k).hready = true) (hc : b.dut.cfg.Valid)
    (hdone : (trace Bench.step b i (n + 1)).fsm.rDone = true) :
    (∀ w < b.dut.cfg.wOut, ∀ ch < b.dut.cfg.rCOut.toNat,
      (trace Bench.step b i (n + 1)).slave.mem (b.dut.cfg.dstAddr w ch) =
        b.dut.cfg.refOut b.slave.mem w ch) ∧
      ∀ x, x ∉ b.dut.cfg.dstRegion →
        (trace Bench.step b i (n + 1)).slave.mem x = b.slave.mem x := by
  set c := b.dut.cfg
  obtain ⟨k, hk, hm⟩ := Bench.mem_of_stored hq hi (fun n _ _ => hready n)
    (Bench.stored_of_ready hq hi hready hdone)
  have hinv := (Seq.inv_start hc : Seq.Inv c b.slave.mem (Seq.start b)).iterate hc k
  rw [Seq.Inv, hk] at hinv
  rw [hm, hinv]
  refine ⟨fun w hw ch hch => ?_, fun x hx => outMem_of_notMem hc _ hx le_rfl⟩
  have hlt : ch * c.wOut + w < c.rCOut.toNat * c.wOut := by
    calc ch * c.wOut + w < ch * c.wOut + c.wOut := Nat.add_lt_add_left hw _
      _ = (ch + 1) * c.wOut := by ring
      _ ≤ c.rCOut.toNat * c.wOut := Nat.mul_le_mul_right _ hch
  have hmod : (ch * c.wOut + w) % c.wOut = w := by
    rw [Nat.mul_comm, Nat.mul_add_mod, Nat.mod_eq_of_lt hw]
  have hdiv : (ch * c.wOut + w) / c.wOut = ch := by
    rw [Nat.mul_comm, Nat.mul_add_div c.wOut_pos, Nat.div_eq_of_lt hw, Nat.add_zero]
  have h := outMem_dstAddr hc b.slave.mem hlt le_rfl
  rwa [hmod, hdiv] at h

theorem valid_twoOutputs : Bench.twoOutputs.dut.cfg.Valid where
  cIn := by decide
  cOut := by decide
  kW := by decide
  stride := by decide
  kW_le := by decide
  taps_le := by decide
  src := by decide
  wt := by decide
  bias := by decide
  shift := by decide
  dst := by decide
  disjSrc x hx hy := by
    have h1 : 0x40 ≤ x.toNat := hx.1
    have h2 : x.toNat < 0 + 2 := hy.2
    omega
  disjWt x hx hy := by
    have h1 : 0x40 ≤ x.toNat := hx.1
    have h2 : x.toNat < 0x10 + 1 := hy.2
    omega
  disjBias x hx hy := by
    have h1 : 0x40 ≤ x.toNat := hx.1
    have h2 : x.toNat < 0x20 + 4 := hy.2
    omega
  disjShift x hx hy := by
    have h1 : 0x40 ≤ x.toNat := hx.1
    have h2 : x.toNat < 0x30 + 1 := hy.2
    omega

/-- The two outputs `1 * 1` and `2 * 1`. -/
theorem conv1d_correct_twoOutputs :
    (∀ w < 2, ∀ ch < 1,
      (trace Bench.step Bench.twoOutputs (startWithStalls []) (23 + 1)).slave.mem
          (Bench.twoOutputs.dut.cfg.dstAddr w ch) =
        Bench.twoOutputs.dut.cfg.refOut Bench.twoOutputs.slave.mem w ch) ∧
      ∀ x, x ∉ Bench.twoOutputs.dut.cfg.dstRegion →
        (trace Bench.step Bench.twoOutputs (startWithStalls []) (23 + 1)).slave.mem x =
          Bench.twoOutputs.slave.mem x :=
  conv1d_correct Bench.quiescent_twoOutputs (startRun_startWithStalls _)
    (fun _ => by simp [startWithStalls]) valid_twoOutputs (by decide +kernel)

end KwsSoc.Conv1dAccel
