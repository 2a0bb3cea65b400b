import KwsSoc.Accel.Datapath

/-! # The convolution layer of the firmware

A model of `test/common/nnom_conv1d_hw.c`: the constructors `conv2d_s` and `Conv2D`, `conv2d_build`,
and `conv2d_run`, which hands a layer to the accelerator or falls back to software (`Path`). Next to
it stand the formula that `accel_conv1d.h` documents for the accelerator (`AccelArgs.out`) and the
one of NNoM's `local_convolve_HWC_q7_nonsquare` (`Layer.softOut`). Shapes are natural numbers and
are cut to the widths of the C code where it casts them. -/

namespace KwsSoc.Firmware

open Conv1dAccel Finset

/-! ## Layers -/

/-- Height and width of a kernel, stride, dilation or padding. -/
structure Shape2 where
  h : ℕ
  w : ℕ
  deriving DecidableEq

/-- Dimensions of a tensor in HWC order. -/
structure Dim where
  h : ℕ
  w : ℕ
  c : ℕ
  deriving DecidableEq

/-- `nnom_padding_t`. -/
inductive Padding
  | valid | same
  deriving DecidableEq

/-- `nnom_qtype_t`. -/
inductive QType
  | perTensor | perAxis
  deriving DecidableEq

/-- The fields of `nnom_conv2d_layer_t`; `qtype` is that of the weight tensor. -/
structure Conv2dLayer where
  kernel : Shape2
  stride : Shape2
  dilation : Shape2
  pad : Shape2
  filterMult : ℕ
  paddingType : Padding
  qtype : QType

/-- The fields of `nnom_conv2d_config_t`; `numDim` and `qtype` are those of its weight tensor. -/
structure Conv2dConfig where
  numDim : ℕ
  qtype : QType
  filterSize : ℕ
  kernelSize : ℕ → ℕ
  strideSize : ℕ → ℕ
  dilationSize : ℕ → ℕ
  paddingType : Padding

/-- The padding of a `PADDING_SAME` layer. -/
def samePad (dilation kernel : Shape2) : Shape2 :=
  ⟨dilation.h * (kernel.h - 1) / 2, dilation.w * (kernel.w - 1) / 2⟩

/-- `conv2d_s`. -/
def conv2dS (config : Conv2dConfig) : Conv2dLayer :=
  let shape (f : ℕ → ℕ) : Shape2 := if config.numDim = 3 then ⟨1, f 0⟩ else ⟨f 0, f 1⟩
  { kernel := shape config.kernelSize
    stride := shape config.strideSize
    dilation := shape config.dilationSize
    filterMult := config.filterSize
    paddingType := config.paddingType
    qtype := config.qtype
    pad :=
      if config.paddingType = .same then
        samePad (shape config.dilationSize) (shape config.kernelSize)
      else ⟨0, 0⟩ }

/-- `Conv2D`: quantised per tensor, and the padding is left to `conv2d_build`. -/
def conv2D (filters : ℕ) (k s d : Shape2) (padType : Padding) : Conv2dLayer where
  kernel := k
  stride := s
  dilation := d
  pad := ⟨0, 0⟩
  filterMult := filters
  paddingType := padType
  qtype := .perTensor

/-- `conv_output_length`, in 32-bit arithmetic. -/
def convOutputLength (inputLength filterSize : BitVec 32) (padding : Padding)
    (stride dilation : BitVec 32) : BitVec 32 :=
  if inputLength = 0 then 0
  else
    let dilatedFilterSize := (filterSize - 1) * dilation + 1
    let outputLength :=
      if padding = .same then inputLength else inputLength - dilatedFilterSize + 1
    (outputLength + stride - 1) / stride

/-- `conv2d_build`: the padding of the layer and the dimensions of the output tensor. -/
def conv2dBuild (cl : Conv2dLayer) (dim : Dim) : Conv2dLayer × Dim :=
  let length (n k s d : ℕ) : ℕ :=
    (convOutputLength (.ofNat 32 n) (.ofNat 32 k) cl.paddingType (.ofNat 32 s) (.ofNat 32 d)).toNat
  ({ cl with pad := if cl.paddingType = .same then samePad cl.dilation cl.kernel else cl.pad },
    { h := length dim.h cl.kernel.h cl.stride.h cl.dilation.h
      w := length dim.w cl.kernel.w cl.stride.w cl.dilation.w
      c := cl.filterMult })

/-! ## Data -/

/-- The input tensor; `data` is memory from `p_data` on. -/
structure Tensor where
  bitwidth : ℕ
  dim : Dim
  addr : BitVec 32
  data : ℕ → BitVec 8

/-- What the pointers of the layer lead to. -/
structure LayerData where
  weight : ℕ → BitVec 8
  bias : ℕ → BitVec 8
  biasLshift : ℕ → BitVec 32
  outputRshift : ℕ → BitVec 32

/-- `s_pad_buf`: its address, and what earlier layers have left in it. -/
structure PadBuf where
  addr : BitVec 32
  stale : ℕ → BitVec 8

/-! ## The accelerator path -/

/-- `ACCEL_MAX_CHOUT`. -/
def accelMaxChout : ℕ := 64

/-- `ACCEL_PAD_BUF_SIZE`. -/
def accelPadBufSize : ℕ := 9216

/-- The arguments of `accel_conv1d`; `srcAddr` is the pointer behind `src`. -/
structure AccelArgs where
  srcAddr : BitVec 32
  src : ℕ → BitVec 8
  wt : ℕ → BitVec 8
  bias32 : ℕ → BitVec 32
  shiftArr : ℕ → BitVec 8
  cIn : BitVec 8
  cOut : BitVec 8
  kW : BitVec 8
  stride : BitVec 8
  wIn : BitVec 16

/-- How `conv2d_run` handles a layer: through the accelerator, in software, or, before either, by
writing behind the end of `s_pad_buf`. -/
inductive Path
  | accel (args : AccelArgs)
  | software
  | overrun

/-- The condition in front of the accelerator path. -/
def accelGuard (cl : Conv2dLayer) (x : Tensor) (out : Dim) : Bool :=
  x.bitwidth == 8 && x.dim.h == 1 && cl.dilation.w == 1 && cl.dilation.h == 1 &&
    decide (out.c ≤ accelMaxChout)

/-- `NNOM_ROUND` of a 32-bit shift; the machine shifts by the low five bits. -/
def nnomRound (shift : BitVec 32) : BitVec 32 :=
  ((1 : BitVec 32) <<< (shift.toNat % 32)).sshiftRight 1

/-- The entries of `s_bias32`. -/
def bias32 (d : LayerData) (c : ℕ) : BitVec 32 :=
  (d.bias c).signExtend 32 <<< ((d.biasLshift c).toNat % 32) + nnomRound (d.outputRshift c)

/-- The entries of `s_shift_u8`. -/
def shiftU8 (d : LayerData) (c : ℕ) : BitVec 8 := (d.outputRshift c).setWidth 8

/-- `s_pad_buf` after the copy: `left` zeros, `mid` bytes of input, `left` zeros. -/
def padded (buf : PadBuf) (x : Tensor) (left mid : ℕ) (n : ℕ) : BitVec 8 :=
  if n < left then 0
  else if n < left + mid then x.data (n - left)
  else if n < left + mid + left then 0
  else buf.stale n

/-- `conv2d_run` in the HWC build. -/
def conv2dRun (cl : Conv2dLayer) (x : Tensor) (out : Dim) (d : LayerData) (buf : PadBuf) : Path :=
  if accelGuard cl x out then
    let cIn : BitVec 8 := .ofNat 8 x.dim.c
    let wIn : BitVec 16 := .ofNat 16 x.dim.w
    let args (srcAddr : BitVec 32) (src : ℕ → BitVec 8) (wInHw : BitVec 16) : AccelArgs :=
      { srcAddr := srcAddr, src := src, wt := d.weight, bias32 := bias32 d
        shiftArr := shiftU8 d, cIn := cIn, cOut := .ofNat 8 out.c, kW := .ofNat 8 cl.kernel.w
        stride := .ofNat 8 cl.stride.w, wIn := wInHw }
    if cl.pad.w = 0 then .accel (args x.addr x.data wIn)
    else
      let pad : BitVec 16 := .ofNat 16 cl.pad.w
      let wPad : BitVec 16 := wIn + 2 * pad
      let leftB : ℕ := pad.toNat * cIn.toNat
      let midB : ℕ := wIn.toNat * cIn.toNat
      if wPad.toNat * cIn.toNat > accelPadBufSize then .software
      else if leftB + midB + leftB > accelPadBufSize then .overrun
      else .accel (args buf.addr (padded buf x leftB midB) wPad)
  else .software

namespace AccelArgs

variable (a : AccelArgs)

/-- `W_out = (W_in - K_w) / stride + 1`. -/
def wOut : ℕ := (a.wIn.toNat - a.kW.toNat) / a.stride.toNat + 1

/-- The documented output at position `w` and channel `c`. -/
def out (w c : ℕ) : BitVec 8 :=
  clip8 (((∑ k ∈ range a.kW.toNat, ∑ ci ∈ range a.cIn.toNat,
    (a.src ((w * a.stride.toNat + k) * a.cIn.toNat + ci)).toInt *
      (a.wt ((c * a.kW.toNat + k) * a.cIn.toNat + ci)).toInt) + (a.bias32 c).toInt) >>>
        (a.shiftArr c).toNat)

/-- The bytes of `dst` that `accel_conv1d` writes, `[W_out][C_out]`. The formula for `W_out` says
nothing when the stride is 0 or the kernel wider than the input, and then nothing is promised. -/
def writes (i : ℕ) : Option (BitVec 8) :=
  if a.stride = 0 ∨ a.wIn.toNat < a.kW.toNat then none
  else if i < a.wOut * a.cOut.toNat then some (a.out (i / a.cOut.toNat) (i % a.cOut.toNat))
  else none

end AccelArgs

/-! ## The software path -/

/-- The index of the quantisation parameters of channel `c`. -/
def qIndex (q : QType) (c : ℕ) : ℕ := if q = .perAxis then c else 0

/-- The input at row `row`, column `col` and channel `ci`, and 0 outside the tensor. -/
def inTap (x : Tensor) (row col : ℤ) (ci : ℕ) : ℤ :=
  if 0 ≤ row ∧ row < x.dim.h ∧ 0 ≤ col ∧ col < x.dim.w then
    (x.data ((row.toNat * x.dim.w + col.toNat) * x.dim.c + ci)).toInt
  else 0

/-- The sum of `local_convolve_HWC_q7_nonsquare` over the taps of a kernel. -/
def softSum (cl : Conv2dLayer) (x : Tensor) (d : LayerData) (h w c : ℕ) : ℤ :=
  ∑ i ∈ range cl.kernel.h, ∑ j ∈ range cl.kernel.w, ∑ ci ∈ range x.dim.c,
    inTap x ((h * cl.stride.h + i * cl.dilation.h : ℕ) - cl.pad.h)
      ((w * cl.stride.w + j * cl.dilation.w : ℕ) - cl.pad.w) ci *
        (d.weight (((c * cl.kernel.h + i) * cl.kernel.w + j) * x.dim.c + ci)).toInt

/-- Bias and rounding of `local_convolve_HWC_q7_nonsquare`. -/
def softBias (cl : Conv2dLayer) (d : LayerData) (c : ℕ) : ℤ :=
  (d.bias c).toInt * 2 ^ (d.biasLshift (qIndex cl.qtype c)).toNat +
    2 ^ (d.outputRshift (qIndex cl.qtype c)).toNat / 2

/-- An output of `local_convolve_HWC_q7_nonsquare`. -/
def softOut (cl : Conv2dLayer) (x : Tensor) (d : LayerData) (h w c : ℕ) : BitVec 8 :=
  clip8 ((softSum cl x d h w c + softBias cl d c) >>>
    (d.outputRshift (qIndex cl.qtype c)).toNat)

/-! ## Layers as they are built -/

/-- A call of one of the two constructors. -/
inductive Maker
  | conv2dS (config : Conv2dConfig)
  | conv2D (filters : ℕ) (k s d : Shape2) (padType : Padding)

/-- The layer a constructor returns. -/
def Maker.layer : Maker → Conv2dLayer
  | .conv2dS config => Firmware.conv2dS config
  | .conv2D filters k s d padType => Firmware.conv2D filters k s d padType

/-- Shapes that make sense: nothing is empty, a kernel without padding fits its input, and
`conv_output_length` does not wrap around. -/
structure WellShaped (cl : Conv2dLayer) (dim : Dim) : Prop where
  kernelH : 1 ≤ cl.kernel.h
  kernelW : 1 ≤ cl.kernel.w
  strideH : 1 ≤ cl.stride.h
  strideW : 1 ≤ cl.stride.w
  filters : 1 ≤ cl.filterMult
  height : 1 ≤ dim.h
  width : 1 ≤ dim.w
  channels : 1 ≤ dim.c
  fitsH : cl.paddingType = .valid → (cl.kernel.h - 1) * cl.dilation.h + 1 ≤ dim.h
  fitsW : cl.paddingType = .valid → (cl.kernel.w - 1) * cl.dilation.w + 1 ≤ dim.w
  rangeH : dim.h + cl.stride.h ≤ 2 ^ 32
  rangeW : dim.w + cl.stride.w ≤ 2 ^ 32

/-- A layer built for an input tensor of width `bitwidth` and dimensions `dim`. -/
structure BuiltLayer where
  maker : Maker
  bitwidth : ℕ
  dim : Dim
  shaped : WellShaped maker.layer dim

/-- What a built layer runs on: its input, the parameters behind its pointers and the scratch
buffer. -/
structure Content where
  addr : BitVec 32
  data : ℕ → BitVec 8
  params : LayerData
  buf : PadBuf

namespace BuiltLayer

variable (b : BuiltLayer)

/-- The layer after `conv2d_build`. -/
def layer : Conv2dLayer := (conv2dBuild b.maker.layer b.dim).1

/-- The dimensions of its output. -/
def outDim : Dim := (conv2dBuild b.maker.layer b.dim).2

/-- The padded width as `conv2d_run` computes it. -/
def wPad : BitVec 16 := .ofNat 16 b.dim.w + 2 * .ofNat 16 b.layer.pad.w

/-- The input tensor. -/
def input (x : Content) : Tensor := ⟨b.bitwidth, b.dim, x.addr, x.data⟩

/-- `conv2d_run`. -/
def run (x : Content) : Path := conv2dRun b.layer (b.input x) b.outDim x.params x.buf

/-- The condition of the accelerator path: int8, one row, no dilation, at most 64 output channels,
and a padded input that fits `s_pad_buf`. -/
def Accelerated : Prop :=
  b.bitwidth = 8 ∧ b.dim.h = 1 ∧ b.layer.dilation = ⟨1, 1⟩ ∧ b.outDim.c ≤ accelMaxChout ∧
    (b.layer.pad.w = 0 ∨ b.wPad.toNat * (b.dim.c % 256) ≤ accelPadBufSize)

instance : Decidable b.Accelerated := by unfold Accelerated; infer_instance

end BuiltLayer

end KwsSoc.Firmware
