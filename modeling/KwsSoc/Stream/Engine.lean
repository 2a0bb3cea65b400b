import KwsSoc.Lib.Buffer
import KwsSoc.Lib.Windows

/-! # The streaming engine

A model of `model/streaming/kws_stream_b.c`. An array of `frames × channels` bytes is a buffer of
frames (`data[frame][channel]`), and the sizes of copies and layers are in frames. Reading or
writing outside an array is undefined, and so is the overflow of an `int`: the engine is then
`none`.

The `local_*` primitives are not in the repository. `Nnom` has what they compute: from a window,
from a byte or from a vector. Where they take their windows, and how many, is in `localWindowed`. -/

namespace KwsSoc.Stream

open Windows

/-! ## Primitives -/

/-- The bytes of one frame. -/
abbrev Frame (ch : ℕ) := Fin ch → BitVec 8

/-- A frame of zeros. -/
def zeroFrame {ch : ℕ} : Frame ch := fun _ => 0#8

/-- `weight`, `bias`, `bias_shift` and `out_shift` of a convolution. -/
structure Conv (chIn chOut kernelX : ℕ) where
  weight : Fin chOut → Fin kernelX → Fin chIn → BitVec 8
  bias : Fin chOut → BitVec 8
  biasShift : Fin chOut → ℤ
  outShift : Fin chOut → ℤ

/-- Weights, bias and shifts of a fully connected layer. -/
structure Dense (dimVec numOfRows : ℕ) where
  weight : Fin numOfRows → Fin dimVec → BitVec 8
  bias : Fin numOfRows → BitVec 8
  biasShift : ℕ
  outShift : ℕ

/-- What the primitives compute. -/
structure Nnom where
  convolve {chIn chOut kernelX : ℕ} : Conv chIn chOut kernelX → List (Frame chIn) → Frame chOut
  relu : BitVec 8 → BitVec 8
  maxpool {ch : ℕ} : List (Frame ch) → Frame ch
  fullyConnected {dimVec numOfRows : ℕ} :
    Dense dimVec numOfRows → Frame dimVec → Frame numOfRows
  softmax {ch : ℕ} : Frame ch → Frame ch

/-- The constants of `strided_s16_nodil_weights.h` that the engine uses. -/
structure Weights where
  conv1d : Conv 1 32 129
  conv1d_1 : Conv 32 48 3
  conv1d_2 : Conv 48 48 3
  conv1d_3 : Conv 48 48 3
  conv1d_4 : Conv 48 48 3
  dense : Dense 48 32
  dense_1 : Dense 32 11

/-- A windowed primitive without padding: reads `dimIn` frames, writes `dimOut` of them. -/
def localWindowed {α β : Type} {n m : ℕ} (kernel stride : ℕ) (f : List α → β) (inp : Buffer α n)
    (dimIn : ℕ) (out : Buffer β m) (dimOut : ℕ) : Option (Buffer β m) := do
  let xs ← inp.read 0 dimIn
  if dimOut ≤ count kernel stride dimIn then
    out.store 0 (((windows kernel stride xs).take dimOut).map f)
  else none

/-! ## The state -/

/-- `KWS_B_HOP`. -/
abbrev hop : ℕ := 1600

/-- `KWS_B_N_GAP`. -/
abbrev nGap : ℕ := 15

/-- `N_SINC_PER_HOP`. -/
abbrev nSincPerHop : ℕ := 100

/-- The largest `int`. -/
abbrev intMax : ℕ := 2 ^ 31 - 1

/-- `kws_stream_b_t`. -/
structure KwsStreamB where
  audioRing : Buffer (Frame 1) 128
  conv1Ctx : Buffer (Frame 32) 2
  conv2Ctx : Buffer (Frame 48) 2
  conv3Ctx : Buffer (Frame 48) 2
  conv4Ctx : Buffer (Frame 48) 2
  pool2Buf : Buffer (Frame 48) 3
  pool2N : ℕ
  pool3Buf : Buffer (Frame 48) 1
  pool3N : ℕ
  gapRing : Buffer (Frame 48) nGap
  gapHead : ℕ
  gapCount : ℕ
  samplesPending : ℕ
  sampleBuf : Buffer (Frame 1) hop

/-- The static scratch arrays. -/
structure Scratch where
  sincIn : Buffer (Frame 1) (128 + hop)
  sincOut : Buffer (Frame 32) nSincPerHop
  conv1In : Buffer (Frame 32) (2 + nSincPerHop)
  conv1Out : Buffer (Frame 48) nSincPerHop
  pool1Out : Buffer (Frame 48) 25
  pool2In : Buffer (Frame 48) 28
  conv2In : Buffer (Frame 48) 27
  conv2Out : Buffer (Frame 48) 25
  pool2Out : Buffer (Frame 48) 7
  pool3In : Buffer (Frame 48) 8
  conv3In : Buffer (Frame 48) 9
  conv3Out : Buffer (Frame 48) 7
  pool3Out : Buffer (Frame 48) 4
  conv4In : Buffer (Frame 48) 6
  conv4Out : Buffer (Frame 48) 4

/-- Frames produced by each stage. -/
@[ext]
structure Stages where
  sinc : List (Frame 32)
  conv1 : List (Frame 48)
  pool1 : List (Frame 48)
  conv2 : List (Frame 48)
  pool2 : List (Frame 48)
  conv3 : List (Frame 48)
  pool3 : List (Frame 48)
  conv4 : List (Frame 48)

/-- What `run_hop` leaves: the state, the scratch arrays and the scores, and the frames that its
stages have produced, which the program does not keep. -/
structure Hop where
  engine : KwsStreamB
  scratch : Scratch
  scores : Frame 11
  frames : Stages

/-! ## Helpers -/

section Helpers

variable {n m c chIn chOut ch : ℕ} (nn : Nnom)

/-- `causal_conv1d`: the scratch array and the output. -/
def causalConv1d (layer : Conv chIn chOut 3) (scratchIn : Buffer (Frame chIn) n)
    (ctx : Buffer (Frame chIn) c) (nCtx : ℕ) (newFrames : Buffer (Frame chIn) m) (nNew : ℕ)
    (out : Buffer (Frame chOut) ch) : Option (Buffer (Frame chIn) n × Buffer (Frame chOut) ch) := do
  let total := nCtx + nNew
  let scratchIn ← scratchIn.memcpy 0 ctx 0 nCtx
  let scratchIn ← scratchIn.memcpy nCtx newFrames 0 nNew
  let out ← localWindowed 3 1 (nn.convolve layer) scratchIn total out nNew
  return (scratchIn, out)

/-- ReLU of every byte of a frame. -/
def reluFrame (x : Frame ch) : Frame ch := fun i => nn.relu (x i)

/-- `relu_inplace`. -/
def reluInplace (buf : Buffer (Frame ch) n) (nFrames : ℕ) : Option (Buffer (Frame ch) n) := do
  let xs ← buf.read 0 nFrames
  buf.store 0 (xs.map (reluFrame nn))

/-- `maxpool_valid`: the output, and how many frames it has. -/
def maxpoolValid (inp : Buffer (Frame ch) n) (nIn k : ℕ) (out : Buffer (Frame ch) m) :
    Option (Buffer (Frame ch) m × ℕ) :=
  let nOut := nIn / k
  if nOut = 0 then some (out, 0)
  else do
    let out ← localWindowed k k nn.maxpool inp nIn out nOut
    return (out, nOut)

/-- What `pool_with_partial` leaves. -/
structure Pooled (ch n m c : ℕ) where
  partialBuf : Buffer (Frame ch) n
  partialN : ℕ
  scratch : Buffer (Frame ch) m
  out : Buffer (Frame ch) c
  nOut : ℕ

/-- `pool_with_partial`. -/
def poolWithPartial {k' : ℕ} (partialBuf : Buffer (Frame ch) n) (partialN : ℕ)
    (newFrames : Buffer (Frame ch) k') (nNew k : ℕ) (scratch : Buffer (Frame ch) m)
    (out : Buffer (Frame ch) c) : Option (Pooled ch n m c) := do
  let total := partialN + nNew
  let scratch ← scratch.memcpy 0 partialBuf 0 partialN
  let scratch ← scratch.memcpy partialN newFrames 0 nNew
  let nOut := total / k
  let leftover := total - nOut * k
  let out ← if nOut > 0 then (maxpoolValid nn scratch (nOut * k) k out).map Prod.fst else some out
  let partialBuf ← partialBuf.memcpy 0 scratch (nOut * k) leftover
  return ⟨partialBuf, leftover, scratch, out, nOut⟩

/-- `update_ctx2`. -/
def updateCtx2 (ctx : Buffer (Frame ch) 2) (frames : Buffer (Frame ch) n) (nFrames : ℕ) :
    Option (Buffer (Frame ch) 2) :=
  if nFrames ≥ 2 then do
    let ctx ← ctx.memcpy 0 frames (nFrames - 2) 1
    ctx.memcpy 1 frames (nFrames - 1) 1
  else if nFrames = 1 then do
    let ctx ← ctx.memcpy 0 ctx 1 1
    ctx.memcpy 1 frames 0 1
  else some ctx

/-- The loop that pushes conv4 frames into the GAP ring: ring, `gap_head` and `gap_count`. -/
def gapPush (ring : Buffer (Frame 48) nGap) (gapHead gapCount : ℕ) :
    List (Frame 48) → Option (Buffer (Frame 48) nGap × ℕ × ℕ)
  | [] => some (ring, gapHead, gapCount)
  | frame :: rest => do
    let ring ← ring.store (gapHead % nGap) [frame]
    -- `gap_head++` is undefined at the largest `int`
    if gapHead < intMax then
      gapPush ring (gapHead + 1) (if gapCount < nGap then gapCount + 1 else gapCount) rest
    else none

/-- The average of `frames`, rounded towards zero. -/
def gapAverage (frames : List (Frame 48)) : Frame 48 := fun i =>
  .ofInt 8 ((frames.map fun x : Frame 48 => (x i).toInt).sum.tdiv frames.length)

/-- Dense, ReLU, dense and softmax. -/
def head (w : Weights) (gapOut : Frame 48) : Frame 11 :=
  let dense0Out := reluFrame nn (nn.fullyConnected w.dense gapOut)
  nn.softmax (nn.fullyConnected w.dense_1 dense0Out)

end Helpers

/-! ## Hops and pushes -/

section Engine

variable (nn : Nnom) (w : Weights)

/-- `run_hop`, from conv4 on. -/
def runHopConv4 (s : KwsStreamB) (scr : Scratch) (pool3Out : Buffer (Frame 48) 4) (nPool3 : ℕ)
    (frames : Stages) : Option Hop := do
  -- conv4
  let (conv4In, conv4Out) ←
    causalConv1d nn w.conv1d_4 scr.conv4In s.conv4Ctx 2 pool3Out nPool3 scr.conv4Out
  let conv4Out ← reluInplace nn conv4Out nPool3
  let conv4Ctx ← updateCtx2 s.conv4Ctx pool3Out nPool3
  -- GAP
  let (gapRing, gapHead, gapCount) ←
    gapPush s.gapRing s.gapHead s.gapCount (conv4Out.first nPool3)
  let s₄ := { s with conv4Ctx, gapRing, gapHead, gapCount }
  let scr₄ := { scr with conv4In, conv4Out }
  let frames₄ := { frames with conv4 := conv4Out.first nPool3 }
  if gapCount = 0 then return ⟨s₄, scr₄, zeroFrame, frames₄⟩
  let slots ← gapRing.read 0 gapCount
  return ⟨s₄, scr₄, head nn w (gapAverage slots), frames₄⟩

/-- `run_hop`, from conv3 on. -/
def runHopConv3 (s : KwsStreamB) (scr : Scratch) (scores : Frame 11) (pool2Out : Buffer (Frame 48) 7)
    (nPool2 : ℕ) (frames : Stages) : Option Hop := do
  -- conv3
  let (conv3In, conv3Out) ←
    causalConv1d nn w.conv1d_3 scr.conv3In s.conv3Ctx 2 pool2Out nPool2 scr.conv3Out
  let conv3Out ← reluInplace nn conv3Out nPool2
  let conv3Ctx ← updateCtx2 s.conv3Ctx pool2Out nPool2
  -- pool3
  let pool3 ← poolWithPartial nn s.pool3Buf s.pool3N conv3Out nPool2 2 scr.pool3In scr.pool3Out
  let s₃ := { s with conv3Ctx, pool3Buf := pool3.partialBuf, pool3N := pool3.partialN }
  let scr₃ := { scr with conv3In, conv3Out, pool3In := pool3.scratch, pool3Out := pool3.out }
  let frames₃ := { frames with
    conv3 := conv3Out.first nPool2, pool3 := pool3.out.first pool3.nOut }
  if pool3.nOut = 0 then return ⟨s₃, scr₃, scores, frames₃⟩
  runHopConv4 nn w s₃ scr₃ pool3.out pool3.nOut frames₃

/-- `run_hop`. -/
def runHop (s : KwsStreamB) (scr : Scratch) (newAudio : Buffer (Frame 1) hop) (scores : Frame 11) :
    Option Hop := do
  -- sinc
  let sincIn ← scr.sincIn.memcpy 0 s.audioRing 0 128
  let sincIn ← sincIn.memcpy 128 newAudio 0 hop
  let sincOut ←
    localWindowed 129 16 (nn.convolve w.conv1d) sincIn (128 + hop) scr.sincOut nSincPerHop
  let sincOut ← reluInplace nn sincOut nSincPerHop
  let audioRing ← s.audioRing.memcpy 0 newAudio (hop - 128) 128
  -- conv1
  let (conv1In, conv1Out) ←
    causalConv1d nn w.conv1d_1 scr.conv1In s.conv1Ctx 2 sincOut nSincPerHop scr.conv1Out
  let conv1Out ← reluInplace nn conv1Out nSincPerHop
  let conv1Ctx ← updateCtx2 s.conv1Ctx sincOut nSincPerHop
  -- pool1
  let (pool1Out, nPool1) ← maxpoolValid nn conv1Out nSincPerHop 4 scr.pool1Out
  -- conv2
  let (conv2In, conv2Out) ←
    causalConv1d nn w.conv1d_2 scr.conv2In s.conv2Ctx 2 pool1Out nPool1 scr.conv2Out
  let conv2Out ← reluInplace nn conv2Out nPool1
  let conv2Ctx ← updateCtx2 s.conv2Ctx pool1Out nPool1
  -- pool2
  let pool2 ← poolWithPartial nn s.pool2Buf s.pool2N conv2Out nPool1 4 scr.pool2In scr.pool2Out
  let s₂ := { s with
    audioRing, conv1Ctx, conv2Ctx, pool2Buf := pool2.partialBuf, pool2N := pool2.partialN }
  let scr₂ := { scr with
    sincIn, sincOut, conv1In, conv1Out, pool1Out, conv2In, conv2Out,
    pool2In := pool2.scratch, pool2Out := pool2.out }
  let frames₂ : Stages :=
    ⟨sincOut.first nSincPerHop, conv1Out.first nSincPerHop, pool1Out.first nPool1,
      conv2Out.first nPool1, pool2.out.first pool2.nOut, [], [], []⟩
  if pool2.nOut = 0 then return ⟨s₂, scr₂, scores, frames₂⟩
  runHopConv3 nn w s₂ scr₂ scores pool2.out pool2.nOut frames₂

/-- `kws_stream_b_reset`. -/
def kwsStreamBReset : KwsStreamB where
  audioRing := .fill _ zeroFrame
  conv1Ctx := .fill _ zeroFrame
  conv2Ctx := .fill _ zeroFrame
  conv3Ctx := .fill _ zeroFrame
  conv4Ctx := .fill _ zeroFrame
  pool2Buf := .fill _ zeroFrame
  pool2N := 0
  pool3Buf := .fill _ zeroFrame
  pool3N := 0
  gapRing := .fill _ zeroFrame
  gapHead := 0
  gapCount := 0
  samplesPending := 0
  sampleBuf := .fill _ zeroFrame

/-- The engine, its scratch arrays and the scores buffer of its user, and the frames of all hops so
far. -/
structure Session where
  engine : KwsStreamB
  scratch : Scratch
  scores : Frame 11
  log : List Stages

/-- The loop of `kws_stream_b_push`, with `samples` left. -/
def pushLoop (c : Session) (produced : Bool) (samples : List (Frame 1)) : Option (Session × Bool) :=
  if samples = [] then some (c, produced)
  else
    let space := hop - c.engine.samplesPending
    let take := if samples.length < space then samples.length else space
    -- the loop would not end
    if take = 0 then none
    else do
      let sampleBuf ← c.engine.sampleBuf.store c.engine.samplesPending (samples.take take)
      let engine := { c.engine with
        sampleBuf, samplesPending := c.engine.samplesPending + take }
      if engine.samplesPending = hop then
        let r ← runHop nn w engine c.scratch sampleBuf c.scores
        pushLoop ⟨{ r.engine with samplesPending := 0 }, r.scratch, r.scores, c.log ++ [r.frames]⟩
          true (samples.drop take)
      else pushLoop { c with engine } produced (samples.drop take)
termination_by samples.length
decreasing_by
  all_goals
    rw [List.length_drop]
    exact Nat.sub_lt (List.length_pos_of_ne_nil (by assumption)) (Nat.pos_of_ne_zero (by assumption))

/-- `kws_stream_b_push`. -/
def kwsStreamBPush (c : Session) (samples : List (Frame 1)) : Option (Session × Bool) :=
  pushLoop nn w c false samples

/-- Pushes, one after the other. -/
def pushes (c : Session) : List (List (Frame 1)) → Option Session
  | [] => some c
  | samples :: rest => do
    let (c, _) ← kwsStreamBPush nn w c samples
    pushes c rest

end Engine

end KwsSoc.Stream
