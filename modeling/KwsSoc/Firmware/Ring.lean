import KwsSoc.Lib.StreamRing
import KwsSoc.Lib.SyncMachine

/-! # The audio ring and the inference loop

A model of the capture path in `test/common/kws_bare_main.c`: the DMA stores bursts into
`audio_ring`, a word at a time and at any time; the trap handler moves `DADDR` on and counts
`bytes_written`; the main loop waits for a window, checks for audio loss, copies the window and
advances by a step. The three interleave as they like (`Event`), the handler running as one piece:
it interrupts the main loop, and the next burst begins after it.

Absolute positions in the captured stream are not in the program, whose counters have 32 bits. They
are the fields of `Ghost`. -/

namespace KwsSoc.Firmware.Capture

open StreamRing SyncMachine

/-! ## Builds -/

/-- `KWS_RING_SAMPLES`. -/
abbrev ringSamples : ℕ := 16384

/-- `MODEL_SAMPLES_PER_CLIP`. -/
abbrev modelSamplesPerClip : ℕ := 8000

/-- The step from one window to the next: `KWS_STEP_SAMPLES`, `KWS_NO_OVERLAP`, or the bytes written
during the iteration, with `KWS_MIN_STEP_RING_BYTES` as their floor. -/
inductive StepPolicy
  | stepSamples (n : BitVec 32) (nonneg : n.toNat < 2 ^ 31)
  | noOverlap
  | dynamic (minStepRingBytes : BitVec 32)

/-- A build: `KWS_DECIMATE`, `I2S_DMA_BURST_WORDS` and the step policy. -/
structure Build where
  decimate : ℕ
  decimate_eq : decimate = 1 ∨ decimate = 2
  burstWords : ℕ
  burst_pos : 0 < burstWords
  burst_dvd : 4 * burstWords ∣ ringSamples
  policy : StepPolicy

namespace Build

variable (b : Build)

/-- `DMA_BURST_BYTES`. -/
def burstBytes : ℕ := 4 * b.burstWords

/-- `RING_SAMPLES_PER_CLIP`. -/
def clip : ℕ := modelSamplesPerClip * b.decimate

/-- `step_bytes`, for an iteration during which `iterBytes` were written. -/
def stepBytes (iterBytes : BitVec 32) : BitVec 32 :=
  match b.policy with
  | .stepSamples n _ => n
  | .noOverlap => .ofNat 32 b.clip
  | .dynamic minStep =>
    let step := if iterBytes < minStep then minStep else iterBytes
    if step > .ofNat 32 b.clip then .ofNat 32 b.clip else step

end Build

/-! ## States -/

/-- Where the main loop is; `infer` is everything from `peak_norm_clip` to the last lines of an
iteration. -/
inductive Pc
  | wait | iterStart | check | resync | copy (j : ℕ) | infer | advance
  deriving DecidableEq

/-- Positions in the captured stream: the bytes the handler has counted, the end of the next window,
the bytes captured at the last check for audio loss, and whether that check has resynchronised. -/
structure Ghost where
  published : ℕ
  nextAbs : ℕ
  checkedAt : ℕ
  resynced : Bool

/-- DMA, handler and main loop. `inBurst` words of the present burst have been stored. -/
structure Sys where
  audioRing : ℕ → BitVec 8
  daddr : ℕ
  inBurst : ℕ
  bytesWritten : BitVec 32
  pc : Pc
  bytesAtNextInference : BitVec 32
  iterStartBw : BitVec 32
  nnomInputData : ℕ → BitVec 8
  ghost : Ghost

/-- What happens next: a word of the burst, the trap handler, or an action of the main loop. -/
inductive Event
  | word | irq | cpu

namespace Sys

variable (b : Build) (stream : ℕ → BitVec 8)

/-- The start of `main`'s loop. -/
def init : Sys where
  audioRing _ := 0
  daddr := 0
  inBurst := 0
  bytesWritten := 0
  pc := .wait
  bytesAtNextInference := .ofNat 32 b.clip
  iterStartBw := 0
  nnomInputData _ := 0
  ghost := ⟨0, b.clip, 0, false⟩

/-- Bytes of the stream stored so far. -/
def captured (s : Sys) : ℕ := s.ghost.published + 4 * s.inBurst

/-- The DMA stores a word, oldest byte first, unless the burst is over and waits for its handler. -/
def word (s : Sys) : Sys :=
  if s.inBurst < b.burstWords then
    let off := s.daddr + 4 * s.inBurst
    { s with
      inBurst := s.inBurst + 1
      audioRing :=
        Function.update
          (Function.update
            (Function.update
              (Function.update s.audioRing off (stream s.captured))
              (off + 1) (stream (s.captured + 1)))
            (off + 2) (stream (s.captured + 2)))
          (off + 3) (stream (s.captured + 3)) }
  else s

/-- `kws_trap_handler`, when a burst is over. -/
def irq (s : Sys) : Sys :=
  if s.inBurst = b.burstWords then
    { s with
      inBurst := 0
      daddr :=
        if s.daddr + b.burstBytes ≥ ringSamples then 0 else s.daddr + b.burstBytes
      bytesWritten := s.bytesWritten + .ofNat 32 b.burstBytes
      ghost := { s.ghost with published := s.ghost.published + b.burstBytes } }
  else s

/-- `(int32_t)(bytes_written - bytes_at_next_inference)`. -/
def lag (s : Sys) : ℤ := (s.bytesWritten - s.bytesAtNextInference).toInt

/-- `ring_idx` of sample `j`. -/
def ringIdx (s : Sys) (j : ℕ) : ℕ :=
  let snapStartByte := s.bytesAtNextInference - .ofNat 32 b.clip
  let snapStartRing := snapStartByte &&& .ofNat 32 (ringSamples - 1)
  ((snapStartRing + .ofNat 32 (j * b.decimate)) &&& .ofNat 32 (ringSamples - 1)).toNat

/-- One action of the main loop; each reads `bytes_written` or the ring at most once. -/
def cpu (s : Sys) : Sys :=
  match s.pc with
  | .wait => if s.lag < 0 then s else { s with pc := .iterStart }
  | .iterStart => { s with iterStartBw := s.bytesWritten, pc := .check }
  | .check =>
    { s with
      pc := if s.lag > b.clip then .resync else .copy 0
      ghost := { s.ghost with checkedAt := s.captured, resynced := false } }
  | .resync =>
    { s with
      bytesAtNextInference := s.bytesWritten, pc := .copy 0
      ghost := { s.ghost with nextAbs := s.ghost.published, resynced := true } }
  | .copy j =>
    { s with
      nnomInputData := Function.update s.nnomInputData j (s.audioRing (s.ringIdx b j))
      pc := if j + 1 < modelSamplesPerClip then .copy (j + 1) else .infer }
  | .infer => { s with pc := .advance }
  | .advance =>
    let step := b.stepBytes (s.bytesWritten - s.iterStartBw)
    { s with
      bytesAtNextInference := s.bytesAtNextInference + step, pc := .wait
      ghost := { s.ghost with nextAbs := s.ghost.nextAbs + step.toNat } }

/-- One event. -/
def step (s : Sys) : Event → Sys
  | .word => s.word b stream
  | .irq => s.irq b
  | .cpu => s.cpu b

/-- The states of a run. -/
def run (e : ℕ → Event) : ℕ → Sys := trace (step b stream) (init b) e

end Sys

end KwsSoc.Firmware.Capture
