import KwsSoc.Firmware.Guard

/-! # Hardware and software convolution

Both paths of `conv2d_run` are sums over windows of a signal: the software path over the padded
input (`padSignal`), the accelerator over the bytes behind its source pointer (`src`). The two
windows coincide for the layers that `Supported` describes, and `agrees_iff` shows that for every
other layer some content tells them apart: it is enough to look at inputs and weights with a single
non-zero byte (`probe`). -/

namespace KwsSoc.Firmware

open Conv1dAccel Finset

/-- Rows of length `b`, laid out one after the other. -/
theorem sum_rows (f : ℕ → ℤ) (a b : ℕ) :
    ∑ k ∈ range a, ∑ i ∈ range b, f (k * b + i) = ∑ n ∈ range (a * b), f n := by
  induction a with
  | zero => simp
  | succ a ih => rw [sum_range_succ, ih, Nat.succ_mul, sum_range_add]

/-- A weight vector with a single non-zero entry picks one term. -/
theorem sum_single (g : ℕ → ℤ) (r n q : ℕ) :
    ∑ k ∈ range n, g k * (if r + k = q then 1 else 0) =
      if r ≤ q ∧ q < r + n then g (q - r) else 0 := by
  split_ifs with h
  · obtain ⟨hr, hq⟩ := h
    rw [sum_eq_single (q - r)]
    · rw [if_pos (by omega), mul_one]
    · intro k _ hk
      rw [if_neg (by omega), mul_zero]
    · intro hmem
      exact absurd (mem_range.mpr (by omega)) hmem
  · apply sum_eq_zero
    intro k hk
    have hlt := mem_range.mp hk
    rw [if_neg (by omega), mul_zero]

/-- The bytes of the output tensor that a path writes. -/
def Path.writes : Path → ℕ → Option (BitVec 8)
  | .accel a, i => a.writes i
  | .software, _ => none
  | .overrun, _ => none

/-- The shifts and the bias terms of a layer are numbers that C can compute in an `int`. -/
structure QuantOk (cl : Conv2dLayer) (d : LayerData) : Prop where
  outShift : ∀ c < cl.filterMult, (d.outputRshift (qIndex cl.qtype c)).toNat ≤ 30
  biasShift : ∀ c < cl.filterMult, (d.biasLshift (qIndex cl.qtype c)).toNat ≤ 31
  bias : ∀ c < cl.filterMult, -2 ^ 31 ≤ softBias cl d c ∧ softBias cl d c < 2 ^ 31

namespace BuiltLayer

variable {b : BuiltLayer} {x : Content}

/-- **The accelerator path agrees with the software path** on every byte of the output. -/
def Agrees (b : BuiltLayer) : Prop :=
  ∀ x : Content, QuantOk b.layer x.params →
    ∀ h < b.outDim.h, ∀ w < b.outDim.w, ∀ c < b.outDim.c,
      (b.run x).writes ((h * b.outDim.w + w) * b.outDim.c + c) =
        some (softOut b.layer (b.input x) x.params h w c)

/-- **The layers on which the paths agree.** -/
structure Supported (b : BuiltLayer) : Prop where
  /-- One kernel row; a second one, below the input, is harmless only for a single filter. -/
  kernelH : b.layer.kernel.h = 1 ∨ b.layer.kernel.h = 2 ∧ b.outDim.c = 1
  channels : b.dim.c ≤ 255
  kernelW : b.layer.kernel.w ≤ 255
  /-- The stride fits 8 bits, or there is only one position. -/
  stride : b.layer.stride.w ≤ 255 ∨ b.outDim.w = 1 ∧ b.layer.stride.w % 256 ≠ 0
  /-- The width fits 16 bits, with its padding, or the rest of it holds the only position. -/
  width : b.dim.w % 65536 + 2 * b.layer.pad.w ≤ 65535
  widthIn : b.dim.w ≤ 65535 ∨
    b.outDim.w = 1 ∧ b.layer.kernel.w ≤ b.dim.w % 65536 + b.layer.pad.w
  /-- An even kernel needs its last position not to reach over the right border. -/
  even : b.layer.paddingType = .same → b.layer.kernel.w % 2 = 0 →
    b.dim.w ≠ 1 ∧ (b.dim.w - 2) / b.layer.stride.w = (b.dim.w - 1) / b.layer.stride.w
  /-- One set of quantisation parameters for each channel. -/
  quant : b.layer.qtype = .perAxis ∨ b.outDim.c = 1

/-! ## The two sums -/

/-- The input with its zero padding. -/
def padSignal (b : BuiltLayer) (x : Content) (n : ℕ) : ℤ :=
  if b.layer.pad.w * b.dim.c ≤ n ∧ n < (b.layer.pad.w + b.dim.w) * b.dim.c then
    (x.data (n - b.layer.pad.w * b.dim.c)).toInt
  else 0

theorem layer_pad_h (hd : b.layer.dilation = ⟨1, 1⟩) :
    b.layer.pad.h = if b.layer.paddingType = .same then (b.layer.kernel.h - 1) / 2 else 0 := by
  rw [layer_pad]
  split
  · simp only [samePad, hd, one_mul]
  · rfl

/-- A tap of the only row, in the padded signal. -/
theorem inTap_eq (hh : b.dim.h = 1) {p ci : ℕ} (hci : ci < b.dim.c) :
    inTap (b.input x) 0 ((p : ℤ) - b.layer.pad.w) ci = b.padSignal x (p * b.dim.c + ci) := by
  -- rows of `c` bytes: the byte belongs to row `p`
  have hrow : ∀ k, k * b.dim.c ≤ p * b.dim.c + ci ↔ k ≤ p := by
    intro k
    constructor
    · intro h
      by_contra hk
      have := Nat.mul_le_mul_right b.dim.c (by omega : p + 1 ≤ k)
      rw [Nat.succ_mul] at this
      omega
    · intro h
      have := Nat.mul_le_mul_right b.dim.c h
      omega
  have hrow' : ∀ k, p * b.dim.c + ci < k * b.dim.c ↔ p < k := by
    intro k
    have := hrow k
    omega
  rw [inTap, padSignal]
  -- inside the input the tap is its byte, outside it is padding on both sides
  by_cases hin : b.layer.pad.w ≤ p ∧ p < b.layer.pad.w + b.dim.w
  · obtain ⟨hlo, hhi⟩ := hin
    have hidx : p * b.dim.c + ci - b.layer.pad.w * b.dim.c =
        (p - b.layer.pad.w) * b.dim.c + ci := by
      rw [Nat.sub_mul]
      have := Nat.mul_le_mul_right b.dim.c hlo
      omega
    have hcol : ((p : ℤ) - b.layer.pad.w).toNat = p - b.layer.pad.w := by omega
    have hcond : (0 : ℤ) ≤ 0 ∧ (0 : ℤ) < (b.input x).dim.h ∧
        0 ≤ (p : ℤ) - b.layer.pad.w ∧ (p : ℤ) - b.layer.pad.w < (b.input x).dim.w := by
      simp only [input, hh]
      omega
    rw [if_pos hcond, if_pos ⟨(hrow _).mpr hlo, (hrow' _).mpr hhi⟩, hidx, hcol]
    simp [input]
  · have hcond : ¬ ((0 : ℤ) ≤ 0 ∧ (0 : ℤ) < (b.input x).dim.h ∧
        0 ≤ (p : ℤ) - b.layer.pad.w ∧ (p : ℤ) - b.layer.pad.w < (b.input x).dim.w) := by
      simp only [input, hh]
      omega
    rw [if_neg hcond, if_neg]
    rw [hrow, hrow']
    exact hin

/-- **The software sum** is a window of the padded signal against one kernel row. -/
theorem softSum_eq (hh : b.dim.h = 1) (hd : b.layer.dilation = ⟨1, 1⟩) (w c : ℕ) :
    softSum b.layer (b.input x) x.params 0 w c =
      ∑ n ∈ range (b.layer.kernel.w * b.dim.c),
        b.padSignal x (w * b.layer.stride.w * b.dim.c + n) *
          (x.params.weight ((c * b.layer.kernel.h + b.layer.pad.h) *
            (b.layer.kernel.w * b.dim.c) + n)).toInt := by
  -- only one kernel row meets the single row of the input
  have hpad : b.layer.pad.h < b.layer.kernel.h := by
    have hk : 1 ≤ b.layer.kernel.h := b.shaped.kernelH
    rw [layer_pad_h hd]
    split <;> omega
  rw [softSum, sum_eq_single b.layer.pad.h]
  · -- the row that meets the input
    rw [← sum_rows]
    apply sum_congr rfl
    intro j _
    apply sum_congr rfl
    intro ci hci
    have hrow : ((0 * b.layer.stride.h + b.layer.pad.h * b.layer.dilation.h : ℕ) : ℤ) -
        b.layer.pad.h = 0 := by
      rw [hd]
      simp
    have hcol : w * b.layer.stride.w + j * b.layer.dilation.w = w * b.layer.stride.w + j := by
      rw [hd, Nat.mul_one]
    rw [hrow, hcol, inTap_eq hh (mem_range.mp hci)]
    congr 2
    · ring
    · congr 1
      simp only [input]
      ring
  · -- every other row lies outside
    intro i _ hi
    apply sum_eq_zero
    intro j _
    apply sum_eq_zero
    intro ci _
    rw [inTap, if_neg, zero_mul]
    simp only [input, hh, hd]
    omega
  · intro hmem
    exact absurd (mem_range.mpr hpad) hmem

/-- **The accelerator's sum** is a window of the source bytes. -/
theorem accelSum_eq (a : AccelArgs) (w c : ℕ) :
    (∑ k ∈ range a.kW.toNat, ∑ ci ∈ range a.cIn.toNat,
      (a.src ((w * a.stride.toNat + k) * a.cIn.toNat + ci)).toInt *
        (a.wt ((c * a.kW.toNat + k) * a.cIn.toNat + ci)).toInt) =
      ∑ n ∈ range (a.kW.toNat * a.cIn.toNat),
        (a.src (w * a.stride.toNat * a.cIn.toNat + n)).toInt *
          (a.wt (c * (a.kW.toNat * a.cIn.toNat) + n)).toInt := by
  rw [← sum_rows]
  apply sum_congr rfl
  intro k _
  apply sum_congr rfl
  intro ci _
  congr 3
  · ring
  · ring

/-! ## Bias and shift -/

theorem toNat_args_kW : (b.args x).kW.toNat = b.layer.kernel.w % 256 := BitVec.toNat_ofNat _ _

theorem toNat_args_stride : (b.args x).stride.toNat = b.layer.stride.w % 256 :=
  BitVec.toNat_ofNat _ _

theorem toNat_args_cIn : (b.args x).cIn.toNat = b.dim.c % 256 := BitVec.toNat_ofNat _ _

/-- At most 64 filters fit the 8 bits. -/
theorem toNat_args_cOut (h : b.Accelerated) : (b.args x).cOut.toNat = b.outDim.c := by
  have hc : b.outDim.c ≤ 64 := h.2.2.2.1
  exact (BitVec.toNat_ofNat _ _).trans (Nat.mod_eq_of_lt (by omega))

/-- **What `accel_conv1d` writes at a position**, if it writes anything. -/
theorem writes_eq_some_iff (h : b.Accelerated) {w c : ℕ} {v : BitVec 8} (hc : c < b.outDim.c) :
    (b.args x).writes (w * b.outDim.c + c) = some v ↔
      b.layer.stride.w % 256 ≠ 0 ∧ b.layer.kernel.w % 256 ≤ b.wPad.toNat ∧
        w < (b.wPad.toNat - b.layer.kernel.w % 256) / (b.layer.stride.w % 256) + 1 ∧
        v = (b.args x).out w c := by
  have hwin : (b.args x).wIn.toNat = b.wPad.toNat := rfl
  -- the position that is written, from the index
  have hdivw : (w * b.outDim.c + c) / b.outDim.c = w := by
    rw [Nat.mul_comm, Nat.mul_add_div (by omega), Nat.div_eq_of_lt hc, Nat.add_zero]
  have hmodc : (w * b.outDim.c + c) % b.outDim.c = c := by
    rw [Nat.mul_comm, Nat.mul_add_mod, Nat.mod_eq_of_lt hc]
  have hlt : w * b.outDim.c + c < (b.args x).wOut * b.outDim.c ↔ w < (b.args x).wOut := by
    rw [← Nat.div_lt_iff_lt_mul (by omega), hdivw]
  have hzero : (b.args x).stride = 0 ↔ b.layer.stride.w % 256 = 0 := by
    rw [← BitVec.toNat_inj, toNat_args_stride]
    rfl
  rw [AccelArgs.writes, toNat_args_cOut h, hdivw, hmodc]
  simp only [hlt, hzero]
  rw [AccelArgs.wOut, toNat_args_stride, toNat_args_kW, hwin]
  by_cases hdef : b.layer.stride.w % 256 = 0 ∨ b.wPad.toNat < b.layer.kernel.w % 256
  · rw [if_pos hdef]
    refine iff_of_false (Option.some_ne_none v).symm fun hr => ?_
    rcases hdef with hst | hkw
    · exact hr.1 hst
    · exact absurd hr.2.1 (not_le.mpr hkw)
  · rw [if_neg hdef]
    rw [not_or, not_lt] at hdef
    split
    case isTrue hw => exact ⟨fun hv => ⟨hdef.1, hdef.2, hw, (Option.some.inj hv).symm⟩,
      fun hr => congrArg some hr.2.2.2.symm⟩
    case isFalse hw => exact iff_of_false (Option.some_ne_none v).symm fun hr => hw hr.2.2.1

/-! ## Supported layers agree -/

/-- The windows of the software path stay within the padded input. -/
theorem Supported.window_le (hs : b.Supported) (hd : b.layer.dilation = ⟨1, 1⟩) {w : ℕ}
    (hw : w < b.outDim.w) :
    w * b.layer.stride.w + b.layer.kernel.w ≤ b.dim.w + 2 * b.layer.pad.w := by
  have hwid : 1 ≤ b.dim.w := b.shaped.width
  have hk : 1 ≤ b.layer.kernel.w := b.shaped.kernelW
  rw [outDim_w hd, Nat.lt_succ_iff] at hw
  rw [layer_pad_w hd]
  by_cases hp : b.layer.paddingType = .same
  · rw [if_pos hp] at hw
    rw [if_pos hp]
    by_cases hev : b.layer.kernel.w % 2 = 0
    · obtain ⟨h1, hlast⟩ := hs.even hp hev
      rw [← hlast] at hw
      have := Nat.mul_le_of_le_div _ _ _ hw
      omega
    · have := Nat.mul_le_of_le_div _ _ _ hw
      omega
  · have hv : b.layer.paddingType = .valid := by
      cases hq : b.layer.paddingType
      · rfl
      · exact absurd hq hp
    have hfit := (kernel_le hd hv).2
    rw [if_neg hp] at hw
    have := Nat.mul_le_of_le_div _ _ _ hw
    omega

/-- The accelerator covers every position of the output. -/
theorem Supported.covers (hs : b.Supported) (hd : b.layer.dilation = ⟨1, 1⟩) :
    b.layer.kernel.w ≤ b.dim.w % 65536 + 2 * b.layer.pad.w ∧ b.layer.stride.w % 256 ≠ 0 ∧
      b.outDim.w ≤ (b.dim.w % 65536 + 2 * b.layer.pad.w - b.layer.kernel.w) /
        (b.layer.stride.w % 256) + 1 := by
  have hwid : 1 ≤ b.dim.w := b.shaped.width
  have hk : 1 ≤ b.layer.kernel.w := b.shaped.kernelW
  have hst : 1 ≤ b.layer.stride.w := b.shaped.strideW
  have hpos : 0 < b.outDim.w := by
    rw [outDim_w hd]
    exact Nat.succ_pos _
  have h0 := hs.window_le hd hpos
  have hnz : b.layer.stride.w % 256 ≠ 0 := by
    rcases hs.stride with h | h
    · omega
    · exact h.2
  -- either the width fits its register, or there is one position only
  rcases hs.widthIn with hin | ⟨h1, hin⟩
  · rw [Nat.mod_eq_of_lt (by omega : b.dim.w < 65536)]
    refine ⟨by omega, hnz, ?_⟩
    rcases hs.stride with h | h
    · -- the last position is also the last one of the accelerator
      have hlast := hs.window_le hd (Nat.sub_lt hpos Nat.one_pos)
      rw [Nat.mod_eq_of_lt (by omega)]
      have hdiv : b.outDim.w - 1 ≤
          (b.dim.w + 2 * b.layer.pad.w - b.layer.kernel.w) / b.layer.stride.w := by
        rw [Nat.le_div_iff_mul_le (by omega)]
        omega
      omega
    · rw [h.1]
      exact Nat.succ_le_succ (Nat.zero_le _)
  · refine ⟨by omega, hnz, ?_⟩
    rw [h1]
    exact Nat.succ_le_succ (Nat.zero_le _)

/-- An input with its only non-zero byte at `p` and weights with the only one at `q`, no bias, and
shift `s` for every channel but the first, which has 0. -/
def probe (p q : ℕ) (s : BitVec 32) : Content where
  addr := 0
  data n := if n = p then 1 else 0
  params :=
    { weight := fun n => if n = q then 1 else 0
      bias := fun _ => 0
      biasLshift := fun _ => 0
      outputRshift := fun c => if c = 0 then 0 else s }
  buf := ⟨0, fun _ => 0⟩

/-- Byte `y` behind the source pointer is byte `p` of the input. -/
def SrcAt (b : BuiltLayer) (y p : ℕ) : Prop :=
  if b.layer.pad.w = 0 then y = p else y = b.leftB + p ∧ p < b.midB

theorem src_probe (p q : ℕ) (s : BitVec 32) (y : ℕ) (h : ¬ b.SrcAt y p) :
    (b.src (probe p q s) y).toInt = 0 := by
  rw [SrcAt] at h
  rw [src]
  split_ifs at h ⊢
  · simp [probe, h]
  · rw [padded]
    split_ifs
    · rfl
    · have hne : ¬ (y - b.leftB = p) := by omega
      simp [input, probe, hne]
    · rfl
    · rfl

theorem src_probe_at (p q : ℕ) (s : BitVec 32) (y : ℕ) (h : b.SrcAt y p) :
    (b.src (probe p q s) y).toInt = 1 := by
  rw [SrcAt] at h
  rw [src]
  split_ifs at h ⊢
  · simp [probe, h]
  · obtain ⟨hy, hp⟩ := h
    rw [padded, if_neg (by omega), if_pos (by omega), show y - b.leftB = p by omega]
    simp [input, probe]

theorem padSignal_probe (p q : ℕ) (s : BitVec 32) (hp : p < b.dim.w * b.dim.c) :
    b.padSignal (probe p q s) (b.layer.pad.w * b.dim.c + p) = 1 := by
  rw [padSignal, if_pos, Nat.add_sub_cancel_left]
  · simp [probe]
  · constructor
    · omega
    · rw [Nat.add_mul]
      omega

theorem weight_probe (p q : ℕ) (s : BitVec 32) (n : ℕ) :
    ((probe p q s).params.weight n).toInt = if n = q then 1 else 0 := by
  simp only [probe]
  split <;> rfl

theorem softSum_probe (hh : b.dim.h = 1) (hd : b.layer.dilation = ⟨1, 1⟩) {w c p t : ℕ}
    (hp : p < b.dim.w * b.dim.c) (ht : t < b.layer.kernel.w * b.dim.c)
    (hpos : w * b.layer.stride.w * b.dim.c + t = b.layer.pad.w * b.dim.c + p) (s : BitVec 32) :
    let q := (c * b.layer.kernel.h + b.layer.pad.h) * (b.layer.kernel.w * b.dim.c) + t
    softSum b.layer (b.input (probe p q s)) (probe p q s).params 0 w c = 1 := by
  intro q
  rw [softSum_eq hh hd]
  simp only [weight_probe]
  rw [sum_single, if_pos ⟨by omega, by omega⟩]
  have hq : q - (c * b.layer.kernel.h + b.layer.pad.h) * (b.layer.kernel.w * b.dim.c) = t := by
    omega
  rw [hq, hpos]
  exact padSignal_probe p q s hp

theorem shift_probe {s : BitVec 32} (hs : s = 0 ∨ b.layer.qtype = .perTensor) (p q c : ℕ) :
    (probe p q s).params.outputRshift (qIndex b.layer.qtype c) = 0 := by
  rcases hs with rfl | hq
  · simp [probe]
  · simp [probe, qIndex, hq]

theorem softBias_probe {s : BitVec 32} (hs : s = 0 ∨ b.layer.qtype = .perTensor) (p q c : ℕ) :
    softBias b.layer (probe p q s).params c = 0 := by
  rw [softBias, shift_probe hs]
  simp [probe]

theorem quantOk_probe {s : BitVec 32} (hs : s = 0 ∨ b.layer.qtype = .perTensor) (p q : ℕ) :
    QuantOk b.layer (probe p q s).params := by
  refine ⟨?_, ?_, ?_⟩
  · intro c _
    rw [shift_probe hs]
    decide
  · intro c _
    simp [probe]
  · intro c _
    rw [softBias_probe hs]
    decide

/-- An agreeing layer calls the accelerator, and it writes what the software path does. -/
theorem Agrees.writes (h : b.Accelerated) (ha : b.Agrees) (hq : QuantOk b.layer x.params)
    {w c : ℕ} (hw : w < b.outDim.w) (hc : c < b.outDim.c) :
    ¬ b.Overruns ∧ (b.args x).writes (w * b.outDim.c + c) =
      some (softOut b.layer (b.input x) x.params 0 w c) := by
  obtain ⟨-, hh, hd, -, -⟩ := id h
  have hrow : 0 < b.outDim.h := by
    rw [outDim_h hd hh]
    exact Nat.one_pos
  have hwr := ha x hq 0 hrow w hw c hc
  rw [Nat.zero_mul, Nat.zero_add, run_accelerated h] at hwr
  by_cases ho : b.Overruns
  · rw [if_pos ho] at hwr
    cases hwr
  · rw [if_neg ho] at hwr
    exact ⟨ho, hwr⟩

/-- **What agreement forces**: the copy stays inside `s_pad_buf`, the formula of the accelerator
makes sense, and it covers the output. -/
theorem Agrees.defined (h : b.Accelerated) (ha : b.Agrees) :
    ¬ b.Overruns ∧ b.layer.stride.w % 256 ≠ 0 ∧ b.layer.kernel.w % 256 ≤ b.wPad.toNat ∧
      b.outDim.w ≤ (b.wPad.toNat - b.layer.kernel.w % 256) / (b.layer.stride.w % 256) + 1 := by
  have hpos : 0 < b.outDim.w := by
    rw [outDim_w h.2.2.1]
    exact Nat.succ_pos _
  have hc : 0 < b.outDim.c := b.shaped.filters
  obtain ⟨ho, hwr⟩ := ha.writes h (quantOk_probe (Or.inl rfl) 0 0) (Nat.sub_lt hpos Nat.one_pos) hc
  obtain ⟨hs, hk, hlt, -⟩ := (writes_eq_some_iff h hc).mp hwr
  exact ⟨ho, hs, hk, by omega⟩

/-- The accelerator's sum over a probe. -/
theorem accelOut_probe (p q : ℕ) (s : BitVec 32) (w c : ℕ) :
    let len := b.layer.kernel.w % 256 * (b.dim.c % 256)
    (b.args (probe p q s)).out w c =
      clip8 (((if c * len ≤ q ∧ q < c * len + len then
          (b.src (probe p q s)
            (w * (b.layer.stride.w % 256) * (b.dim.c % 256) + (q - c * len))).toInt
        else 0) + (bias32 (probe p q s).params c).toInt) >>>
          (shiftU8 (probe p q s).params c).toNat) := by
  intro len
  have hwt : ∀ n, ((b.args (probe p q s)).wt n).toInt = if n = q then 1 else 0 := weight_probe p q s
  rw [AccelArgs.out, accelSum_eq, toNat_args_kW, toNat_args_stride, toNat_args_cIn]
  simp only [hwt]
  rw [sum_single]
  rfl

/-- **Tap lemma**: where a probe reaches the software output, agreement makes it reach that of the
accelerator: weight `q` is in the channel's window there, against the byte of the source that
stands for `p`. -/
theorem Agrees.tap (h : b.Accelerated) (ha : b.Agrees) {w c p t : ℕ} (hw : w < b.outDim.w)
    (hc : c < b.outDim.c) (hp : p < b.dim.w * b.dim.c) (ht : t < b.layer.kernel.w * b.dim.c)
    (hpos : w * b.layer.stride.w * b.dim.c + t = b.layer.pad.w * b.dim.c + p) :
    let q := (c * b.layer.kernel.h + b.layer.pad.h) * (b.layer.kernel.w * b.dim.c) + t
    let len := b.layer.kernel.w % 256 * (b.dim.c % 256)
    c * len ≤ q ∧ q < c * len + len ∧
      b.SrcAt (w * (b.layer.stride.w % 256) * (b.dim.c % 256) + (q - c * len)) p := by
  intro q len
  obtain ⟨-, hh, hd, -, -⟩ := id h
  obtain ⟨-, hwr⟩ := ha.writes h (quantOk_probe (Or.inl rfl) p q) hw hc
  obtain ⟨-, -, -, hout⟩ := (writes_eq_some_iff h hc).mp hwr
  -- the probe has one byte and one weight: the software sum is their product
  have hsoft := softSum_probe (c := c) hh hd hp ht hpos 0
  rw [softOut, hsoft, softBias_probe (Or.inl rfl), shift_probe (Or.inl rfl), accelOut_probe] at hout
  have hbias : (bias32 (probe p q 0).params c).toInt = 0 := by
    simp only [bias32, probe]
    split <;> decide
  have hshift : (shiftU8 (probe p q 0).params c).toNat = 0 := by
    simp only [shiftU8, probe]
    split <;> decide
  rw [hbias, hshift] at hout
  -- if the two did not meet in the accelerator, its sum would be 0
  by_contra hno
  have hzero : (if c * len ≤ q ∧ q < c * len + len then
      (b.src (probe p q 0)
        (w * (b.layer.stride.w % 256) * (b.dim.c % 256) + (q - c * len))).toInt else 0) = 0 := by
    split
    case isTrue hq =>
      apply src_probe
      intro hat
      exact hno ⟨hq.1, hq.2, hat⟩
    case isFalse => rfl
  rw [hzero] at hout
  revert hout
  decide

/-! ## Agreeing layers are supported -/

section Forced

variable (h : b.Accelerated) (ha : b.Agrees)

include h

theorem pad_cases : b.layer.paddingType = .same ∧ b.layer.pad.w = (b.layer.kernel.w - 1) / 2 ∨
    b.layer.paddingType = .valid ∧ b.layer.pad.w = 0 ∧ b.layer.kernel.w ≤ b.dim.w := by
  have hpad := layer_pad_w h.2.2.1
  cases hp : b.layer.paddingType
  · right
    rw [hp, if_neg (by decide)] at hpad
    exact ⟨rfl, hpad, (kernel_le h.2.2.1 hp).2⟩
  · left
    rw [hp, if_pos rfl] at hpad
    exact ⟨rfl, hpad⟩

theorem outDim_w_pos : 0 < b.outDim.w := by
  rw [outDim_w h.2.2.1]
  exact Nat.succ_pos _

include ha

/-- At the left border the first byte of the input meets weight `pad.w * c_in` of the first
kernel row that lies on the input. -/
theorem Agrees.corner {c : ℕ} (hc : c < b.outDim.c) :
    let q := (c * b.layer.kernel.h + b.layer.pad.h) * (b.layer.kernel.w * b.dim.c) +
      b.layer.pad.w * b.dim.c
    let len := b.layer.kernel.w % 256 * (b.dim.c % 256)
    c * len ≤ q ∧ q < c * len + len ∧ b.SrcAt (q - c * len) 0 := by
  have hcin : 1 ≤ b.dim.c := b.shaped.channels
  have hwid : 1 ≤ b.dim.w := b.shaped.width
  have hkw : 1 ≤ b.layer.kernel.w := b.shaped.kernelW
  have hpad : b.layer.pad.w < b.layer.kernel.w := by
    rcases pad_cases h with ⟨-, hp⟩ | ⟨-, hp, -⟩ <;> omega
  have ht : b.layer.pad.w * b.dim.c < b.layer.kernel.w * b.dim.c :=
    Nat.mul_lt_mul_of_pos_right hpad (by omega)
  have htap := ha.tap h (outDim_w_pos h) hc (p := 0) (Nat.mul_pos hwid hcin) ht
    (by rw [Nat.zero_mul, Nat.zero_mul, Nat.zero_add, Nat.add_zero])
  simpa only [Nat.zero_mul, Nat.zero_add] using htap

theorem Agrees.pad_h : b.layer.pad.h = 0 := by
  have hpos : 0 < b.outDim.c := b.shaped.filters
  obtain ⟨-, hlt, -⟩ := ha.corner h hpos
  rw [Nat.zero_mul, Nat.zero_mul, Nat.zero_add, Nat.zero_add] at hlt
  have hlen : b.layer.kernel.w % 256 * (b.dim.c % 256) ≤ b.layer.kernel.w * b.dim.c :=
    Nat.mul_le_mul (Nat.mod_le _ _) (Nat.mod_le _ _)
  by_contra hne
  have := Nat.mul_le_mul_right (b.layer.kernel.w * b.dim.c) (Nat.one_le_iff_ne_zero.mpr hne)
  omega

theorem Agrees.kernelH : b.layer.kernel.h = 1 ∨ b.layer.kernel.h = 2 ∧ b.outDim.c = 1 := by
  have hk : 1 ≤ b.layer.kernel.h := b.shaped.kernelH
  have hpos : 1 ≤ b.outDim.c := b.shaped.filters
  have hle : b.layer.kernel.h ≤ 2 := by
    have hpad := layer_pad_h h.2.2.1
    rw [ha.pad_h h] at hpad
    cases hp : b.layer.paddingType
    · have := (kernel_le h.2.2.1 hp).1
      rw [h.2.1] at this
      omega
    · rw [hp, if_pos rfl] at hpad
      omega
  by_cases h1 : b.layer.kernel.h = 1
  · exact Or.inl h1
  · refine Or.inr ⟨by omega, ?_⟩
    by_contra hc1
    -- the second channel starts two kernel rows into the weights, the accelerator one
    obtain ⟨-, hlt, -⟩ := ha.corner h (c := 1) (by omega)
    rw [ha.pad_h h, show b.layer.kernel.h = 2 by omega] at hlt
    have hlen : b.layer.kernel.w % 256 * (b.dim.c % 256) ≤ b.layer.kernel.w * b.dim.c :=
      Nat.mul_le_mul (Nat.mod_le _ _) (Nat.mod_le _ _)
    omega

theorem Agrees.channels_kernelW : b.dim.c ≤ 255 ∧ b.layer.kernel.w ≤ 255 := by
  have hcin : 1 ≤ b.dim.c := b.shaped.channels
  have hkw : 1 ≤ b.layer.kernel.w := b.shaped.kernelW
  have hwid : 1 ≤ b.dim.w := b.shaped.width
  have hpos : 0 < b.outDim.c := b.shaped.filters
  have hph := ha.pad_h h
  obtain ⟨-, hlt, hsrc⟩ := ha.corner h hpos
  simp only [hph, Nat.zero_mul, Nat.zero_add, Nat.sub_zero] at hlt hsrc
  by_cases hp0 : b.layer.pad.w = 0
  · -- without padding: the first byte behind the accelerator's window is in that of the layer
    by_contra hbig
    have hshort : b.layer.kernel.w % 256 * (b.dim.c % 256) < b.layer.kernel.w * b.dim.c := by
      by_cases hc : b.dim.c ≤ 255
      · have hlt : b.layer.kernel.w % 256 < b.layer.kernel.w := by omega
        calc b.layer.kernel.w % 256 * (b.dim.c % 256)
            ≤ b.layer.kernel.w % 256 * b.dim.c := Nat.mul_le_mul_left _ (Nat.mod_le _ _)
          _ < b.layer.kernel.w * b.dim.c := Nat.mul_lt_mul_of_pos_right hlt hcin
      · have hlt : b.dim.c % 256 < b.dim.c := by omega
        calc b.layer.kernel.w % 256 * (b.dim.c % 256)
            ≤ b.layer.kernel.w * (b.dim.c % 256) := Nat.mul_le_mul_right _ (Nat.mod_le _ _)
          _ < b.layer.kernel.w * b.dim.c := Nat.mul_lt_mul_of_pos_left hlt hkw
    have hin : b.layer.kernel.w % 256 * (b.dim.c % 256) < b.dim.w * b.dim.c := by
      rcases pad_cases h with ⟨-, hp⟩ | ⟨-, -, hfit⟩
      · have hk2 : b.layer.kernel.w % 256 ≤ 2 := by omega
        calc b.layer.kernel.w % 256 * (b.dim.c % 256)
            ≤ 2 * (b.dim.c % 256) := Nat.mul_le_mul_right _ hk2
          _ < 1 * b.dim.c := by omega
          _ ≤ b.dim.w * b.dim.c := Nat.mul_le_mul_right _ hwid
      · exact lt_of_lt_of_le hshort (Nat.mul_le_mul_right _ hfit)
    obtain ⟨-, hlt', -⟩ := ha.tap h (outDim_w_pos h) hpos hin hshort (by rw [hp0]; ring)
    simp only [hph, Nat.zero_mul, Nat.zero_add, Nat.lt_irrefl] at hlt'
  · rw [SrcAt, if_neg hp0, leftB, Nat.add_zero] at hsrc
    -- with padding: the copy puts the first byte where the truncated padding ends
    have hc : b.dim.c ≤ 255 := by
      by_contra hbig
      have hlt' : b.dim.c % 256 < b.dim.c := by omega
      have hless : b.layer.pad.w % 65536 * (b.dim.c % 256) < b.layer.pad.w * b.dim.c :=
        calc b.layer.pad.w % 65536 * (b.dim.c % 256)
            ≤ b.layer.pad.w * (b.dim.c % 256) := Nat.mul_le_mul_right _ (Nat.mod_le _ _)
          _ < b.layer.pad.w * b.dim.c := Nat.mul_lt_mul_of_pos_left hlt' (by omega)
      omega
    rw [Nat.mod_eq_of_lt (by omega : b.dim.c < 256)] at hlt
    have hpk := Nat.lt_of_mul_lt_mul_right hlt
    rcases pad_cases h with ⟨-, hp⟩ | ⟨-, hp, -⟩
    · exact ⟨hc, by omega⟩
    · exact absurd hp hp0

/-- More than one position needs a stride of 8 bits. -/
theorem Agrees.stride : b.layer.stride.w ≤ 255 ∨ b.outDim.w = 1 := by
  have hpos : 0 < b.outDim.c := b.shaped.filters
  have hcin : 1 ≤ b.dim.c := b.shaped.channels
  have hkw : 1 ≤ b.layer.kernel.w := b.shaped.kernelW
  have hst : 1 ≤ b.layer.stride.w := b.shaped.strideW
  have hwpos := outDim_w_pos h
  have hph := ha.pad_h h
  obtain ⟨hc, hk⟩ := ha.channels_kernelW h
  by_contra hno
  obtain ⟨hs, hw1⟩ := not_or.mp hno
  have hpad : b.layer.pad.w < b.layer.kernel.w ∧ b.layer.pad.w < 65536 := by
    rcases pad_cases h with ⟨-, hp⟩ | ⟨-, hp, -⟩ <;> omega
  -- the second position begins inside the input
  have hsw : b.layer.stride.w < b.dim.w := by
    have hwid : 1 ≤ b.dim.w := b.shaped.width
    have hdiv : ∀ n, n < b.dim.w → 1 ≤ n / b.layer.stride.w → b.layer.stride.w < b.dim.w := by
      intro n hn h1
      have := (Nat.one_le_div_iff (by omega)).mp h1
      omega
    have hout := outDim_w h.2.2.1
    split at hout
    · exact hdiv (b.dim.w - 1) (by omega) (by omega)
    · exact hdiv (b.dim.w - b.layer.kernel.w) (by omega) (by omega)
  have hin : b.layer.stride.w * b.dim.c < b.dim.w * b.dim.c :=
    Nat.mul_lt_mul_of_pos_right hsw hcin
  have ht : b.layer.pad.w * b.dim.c < b.layer.kernel.w * b.dim.c :=
    Nat.mul_lt_mul_of_pos_right hpad.1 hcin
  obtain ⟨-, -, hsrc⟩ := ha.tap h (w := 1) (by omega) hpos hin ht (by ring)
  rw [hph, Nat.mod_eq_of_lt (by omega : b.dim.c < 256)] at hsrc
  simp only [Nat.zero_mul, Nat.zero_add, Nat.add_zero, Nat.sub_zero, Nat.one_mul] at hsrc
  -- it would have to be the same byte with the stride cut to 8 bits
  have hsame : b.layer.stride.w % 256 * b.dim.c = b.layer.stride.w * b.dim.c := by
    rw [SrcAt, leftB, Nat.mod_eq_of_lt hpad.2, Nat.mod_eq_of_lt (by omega : b.dim.c < 256)] at hsrc
    split at hsrc
    case isTrue hp0 =>
      rw [hp0] at hsrc
      omega
    case isFalse => omega
  have := Nat.eq_of_mul_eq_mul_right hcin hsame
  omega

theorem Agrees.width : b.dim.w % 65536 + 2 * b.layer.pad.w ≤ 65535 := by
  obtain ⟨hc, hk⟩ := ha.channels_kernelW h
  obtain ⟨hover, -⟩ := ha.defined h
  have hcin : 1 ≤ b.dim.c := b.shaped.channels
  have hpad : b.layer.pad.w < 65536 := by
    rcases pad_cases h with ⟨-, hp⟩ | ⟨-, hp, -⟩ <;> omega
  by_cases hp0 : b.layer.pad.w = 0
  · omega
  · rw [Overruns, not_and, not_lt, leftB, midB, Nat.mod_eq_of_lt hpad,
      Nat.mod_eq_of_lt (by omega : b.dim.c < 256)] at hover
    have hle := hover hp0
    have hsum : b.dim.w % 65536 + 2 * b.layer.pad.w ≤
        (b.dim.w % 65536 + 2 * b.layer.pad.w) * b.dim.c := Nat.le_mul_of_pos_right _ hcin
    have hexp : (b.dim.w % 65536 + 2 * b.layer.pad.w) * b.dim.c =
        b.layer.pad.w * b.dim.c + b.dim.w % 65536 * b.dim.c + b.layer.pad.w * b.dim.c := by ring
    have hsize : accelPadBufSize = 9216 := rfl
    omega

/-- The accelerator's last position, in numbers that have not been cut. -/
theorem Agrees.covers : b.layer.stride.w % 256 ≠ 0 ∧
    b.layer.kernel.w ≤ b.dim.w % 65536 + 2 * b.layer.pad.w ∧
    b.outDim.w - 1 ≤ (b.dim.w % 65536 + 2 * b.layer.pad.w - b.layer.kernel.w) /
      (b.layer.stride.w % 256) := by
  obtain ⟨-, hk⟩ := ha.channels_kernelW h
  obtain ⟨-, hs, hfit, hcov⟩ := ha.defined h
  rw [toNat_wPad (ha.width h), Nat.mod_eq_of_lt (by omega : b.layer.kernel.w < 256)] at hfit hcov
  exact ⟨hs, hfit, Nat.sub_le_of_le_add hcov⟩

/-- A width of more than 16 bits leaves room for one position only. -/
theorem Agrees.widthIn : b.dim.w ≤ 65535 ∨
    b.outDim.w = 1 ∧ b.layer.kernel.w ≤ b.dim.w % 65536 + b.layer.pad.w := by
  have hpos : 0 < b.outDim.c := b.shaped.filters
  have hcin : 1 ≤ b.dim.c := b.shaped.channels
  have hkw : 1 ≤ b.layer.kernel.w := b.shaped.kernelW
  have hst : 1 ≤ b.layer.stride.w := b.shaped.strideW
  have hph := ha.pad_h h
  obtain ⟨hc, hk⟩ := ha.channels_kernelW h
  obtain ⟨hs, hfit, hcov⟩ := ha.covers h
  by_cases hw : b.dim.w ≤ 65535
  · exact Or.inl hw
  · right
    constructor
    · by_contra hw1
      have hs8 := (ha.stride h).resolve_right hw1
      rw [Nat.mod_eq_of_lt (by omega : b.layer.stride.w < 256)] at hcov
      -- what has been cut from the width is more than one stride
      have hout := outDim_w h.2.2.1
      have hlast : (b.dim.w - b.layer.kernel.w) / b.layer.stride.w ≤ b.outDim.w - 1 := by
        split at hout
        · have := Nat.div_le_div_right (c := b.layer.stride.w)
            (by omega : b.dim.w - b.layer.kernel.w ≤ b.dim.w - 1)
          omega
        · omega
      have hpad : b.layer.pad.w ≤ 127 := by
        rcases pad_cases h with ⟨-, hp⟩ | ⟨-, hp, -⟩ <;> omega
      have hcut := Nat.div_le_div_right (c := b.layer.stride.w)
        (by omega : b.dim.w % 65536 + 2 * b.layer.pad.w - b.layer.kernel.w + b.layer.stride.w ≤
          b.dim.w - b.layer.kernel.w)
      rw [Nat.add_div_right _ (by omega)] at hcut
      omega
    · by_contra hlong
      have hin : b.dim.w % 65536 * b.dim.c < b.dim.w * b.dim.c :=
        Nat.mul_lt_mul_of_pos_right (by omega) hcin
      have ht : (b.layer.pad.w + b.dim.w % 65536) * b.dim.c < b.layer.kernel.w * b.dim.c :=
        Nat.mul_lt_mul_of_pos_right (by omega) hcin
      obtain ⟨-, -, hsrc⟩ := ha.tap h (outDim_w_pos h) hpos hin ht (by ring)
      rw [SrcAt] at hsrc
      split at hsrc
      case isTrue hp0 => omega
      case isFalse =>
        rw [midB, Nat.mod_eq_of_lt (by omega : b.dim.c < 256)] at hsrc
        omega

theorem Agrees.even (hp : b.layer.paddingType = .same) (hev : b.layer.kernel.w % 2 = 0) :
    b.dim.w ≠ 1 ∧ (b.dim.w - 2) / b.layer.stride.w = (b.dim.w - 1) / b.layer.stride.w := by
  have hkw : 1 ≤ b.layer.kernel.w := b.shaped.kernelW
  obtain ⟨hs, hfit, hcov⟩ := ha.covers h
  have hpad : b.layer.pad.w = (b.layer.kernel.w - 1) / 2 := by
    rw [layer_pad_w h.2.2.1, if_pos hp]
  have hout := outDim_w h.2.2.1
  rw [if_pos hp] at hout
  have hle : (b.dim.w - 2) / b.layer.stride.w ≤ (b.dim.w - 1) / b.layer.stride.w :=
    Nat.div_le_div_right (by omega)
  -- a single position is the first one, and there is no other quotient than 0
  have hone : b.outDim.w = 1 →
      (b.dim.w - 2) / b.layer.stride.w = (b.dim.w - 1) / b.layer.stride.w := by
    intro h1
    have h0 : (b.dim.w - 1) / b.layer.stride.w = 0 := Nat.succ.inj (hout.symm.trans h1)
    rw [h0] at hle ⊢
    exact Nat.le_zero.mp hle
  refine ⟨by omega, ?_⟩
  rcases ha.widthIn h with hw | ⟨h1, -⟩
  · rcases ha.stride h with hs8 | h1
    · rw [Nat.mod_eq_of_lt (by omega : b.layer.stride.w < 256),
        Nat.mod_eq_of_lt (by omega : b.dim.w < 65536),
        show b.dim.w + 2 * b.layer.pad.w - b.layer.kernel.w = b.dim.w - 2 by omega, hout,
        Nat.add_sub_cancel] at hcov
      exact le_antisymm hle hcov
    · exact hone h1
  · exact hone h1

/-- Per-tensor parameters are read out of bounds from the second channel on. -/
theorem Agrees.quant : b.layer.qtype = .perAxis ∨ b.outDim.c = 1 := by
  have hcin : 1 ≤ b.dim.c := b.shaped.channels
  have hpos : 1 ≤ b.outDim.c := b.shaped.filters
  have hwid : 1 ≤ b.dim.w := b.shaped.width
  have hkw : 1 ≤ b.layer.kernel.w := b.shaped.kernelW
  obtain ⟨-, hh, hd, -, -⟩ := id h
  by_contra hno
  obtain ⟨hax, hc1⟩ := not_or.mp hno
  have hq : (2 : BitVec 32) = 0 ∨ b.layer.qtype = .perTensor := by
    right
    cases hqt : b.layer.qtype
    · rfl
    · exact absurd hqt hax
  have hpad : b.layer.pad.w < b.layer.kernel.w := by
    rcases pad_cases h with ⟨-, hp⟩ | ⟨-, hp, -⟩ <;> omega
  have ht : b.layer.pad.w * b.dim.c < b.layer.kernel.w * b.dim.c :=
    Nat.mul_lt_mul_of_pos_right hpad hcin
  have hin : 0 < b.dim.w * b.dim.c := Nat.mul_pos hwid hcin
  have hsoft := softSum_probe (c := 1) (w := 0) hh hd hin ht (by ring) 2
  obtain ⟨hlo, hhi, hsrc⟩ := ha.corner h (c := 1) (by omega)
  generalize (1 * b.layer.kernel.h + b.layer.pad.h) * (b.layer.kernel.w * b.dim.c) +
    b.layer.pad.w * b.dim.c = q at hsoft hlo hhi hsrc
  obtain ⟨-, hwr⟩ := ha.writes h (quantOk_probe hq 0 q) (outDim_w_pos h) (by omega : 1 < b.outDim.c)
  obtain ⟨-, -, -, hout⟩ := (writes_eq_some_iff h (by omega)).mp hwr
  -- the second channel gets the rounding term and the shift found behind the parameters
  have hbias : (bias32 (probe 0 q 2).params 1).toInt = 2 := by
    simp only [bias32, probe]
    decide
  have hshift : (shiftU8 (probe 0 q 2).params 1).toNat = 2 := by
    simp only [shiftU8, probe]
    decide
  rw [softOut, hsoft, softBias_probe hq, shift_probe hq, accelOut_probe, if_pos ⟨hlo, hhi⟩,
    Nat.zero_mul, Nat.zero_mul, Nat.zero_add, src_probe_at 0 q 2 _ hsrc, hbias, hshift] at hout
  revert hout
  decide

end Forced

end BuiltLayer

end KwsSoc.Firmware
