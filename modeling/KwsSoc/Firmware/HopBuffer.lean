import KwsSoc.Lib.SyncMachine
import Mathlib.Tactic

/-! # Hops of the streaming firmware

A model of the capture path in `test/model/streaming/kws_bare_stream.c`. The DMA fills `dma_batch`
from the FIFO and raises its interrupt; the trap handler appends the batch to `hop_buf` and either
arms the DMA for the next one or, when the hop is complete, sets `hop_ready` and leaves the DMA off;
the main loop sleeps until then, copies the hop, gives the buffer back and runs the engine on its
copy. DMA, handler and main loop interleave as they like (`Event`), the handler running as one piece
wherever interrupts are enabled.

The DMA controller is not part of the repository. It stores the words of a burst one by one and then
latches its interrupt, and after that it does nothing until it is armed again. -/

namespace KwsSoc.Firmware.Hop

open SyncMachine

/-- `KWS_B_HOP`. -/
abbrev kwsBHop : ℕ := 1600

/-- `HOP_BUF_SZ`, for `I2S_FIFO_DEPTH`. -/
def hopBufSz (depth : ℕ) : ℕ := if depth ≥ kwsBHop then depth else kwsBHop

/-- The sample in a word of the FIFO. -/
def q7 (word : BitVec 32) : BitVec 8 := (word >>> 16).setWidth 8

/-- Where the main loop is: before `csr_enable_mie`, at the test of `hop_ready`, at the `wfi`,
asleep in it, at the second test, in the copy, and at the three stores and the call that follow
it. -/
inductive Pc
  | enableMie | test | wfi | asleep | retest | copy (j : ℕ) | resetPos | clearReady | dmaArm | push
  deriving DecidableEq

/-- `en` is the enable bit of the DMA; `armed` says that it has been armed since its last burst, of
which `inBatch` words are stored. `irq` is the latched interrupt and `mie` the global enable bit.

The last fields are not in the program: words read from the FIFO, bursts completed, bursts completed
when the main loop last began to copy, and the buffers passed to `kws_stream_b_push`, each with that
number. -/
structure Sys where
  dmaBatch : ℕ → BitVec 32
  en : Bool
  armed : Bool
  inBatch : ℕ
  irq : Bool
  mie : Bool
  hopBuf : ℕ → BitVec 8
  hopPos : ℕ
  hopReady : Bool
  safeHop : ℕ → BitVec 8
  pc : Pc
  fifoRead : ℕ
  completed : ℕ
  handedOver : ℕ
  pushed : List (ℕ × List (BitVec 8))

/-- What happens next: a word of the burst, its completion, the trap handler, or a step of the main
loop. -/
inductive Event
  | word | complete | irq | cpu

namespace Sys

variable (depth : ℕ) (i2s : ℕ → BitVec 32)

/-- After `dma_arm` and `i2s_init`, before `csr_enable_mie`. -/
def init : Sys where
  dmaBatch _ := 0
  en := true
  armed := true
  inBatch := 0
  irq := false
  mie := false
  hopBuf _ := 0
  hopPos := 0
  hopReady := false
  safeHop _ := 0
  pc := .enableMie
  fifoRead := 0
  completed := 0
  handedOver := 0
  pushed := []

/-- The DMA moves a word from the FIFO to `dma_batch`. -/
def word (s : Sys) : Sys :=
  if s.en ∧ s.armed ∧ s.inBatch < depth then
    { s with
      dmaBatch := Function.update s.dmaBatch s.inBatch (i2s s.fifoRead)
      inBatch := s.inBatch + 1
      fifoRead := s.fifoRead + 1 }
  else s

/-- The DMA ends a burst. -/
def complete (s : Sys) : Sys :=
  if s.en ∧ s.armed ∧ s.inBatch = depth then
    { s with irq := true, armed := false, completed := s.completed + 1 }
  else s

/-- `dma_arm`. -/
def dmaArm (s : Sys) : Sys := { s with en := true, armed := true, inBatch := 0 }

/-- The handler's loop after `i` words of the batch: `hop_buf` and `hop_pos`. -/
def extract (s : Sys) : ℕ → (ℕ → BitVec 8) × ℕ
  | 0 => (s.hopBuf, s.hopPos)
  | i + 1 =>
    let (hopBuf, hopPos) := extract s i
    if hopPos < hopBufSz depth then
      (Function.update hopBuf hopPos (q7 (s.dmaBatch i)), hopPos + 1)
    else (hopBuf, hopPos)

/-- `kws_trap_handler`, after it has cleared the latch. -/
def handler (s : Sys) : Sys :=
  let (hopBuf, hopPos) := s.extract depth depth
  let s' := { s with irq := false, hopBuf, hopPos }
  if hopPos ≥ hopBufSz depth then { s' with hopReady := true, en := false } else s'.dmaArm

/-- The interrupt is taken; a core that slept in `wfi` goes on behind it. -/
def interrupt (s : Sys) : Sys :=
  if s.irq ∧ s.mie then
    { s.handler depth with pc := if s.pc = .asleep then .retest else s.pc }
  else s

/-- One step of the main loop. -/
def cpu (s : Sys) : Sys :=
  match s.pc with
  | .enableMie => { s with mie := true, pc := .test }
  | .test => { s with pc := if s.hopReady then .retest else .wfi }
  | .wfi => { s with pc := .asleep }
  -- `wfi` ends when an interrupt is pending
  | .asleep => if s.irq then { s with pc := .retest } else s
  | .retest =>
    if s.hopReady then { s with pc := .copy 0, handedOver := s.completed } else { s with pc := .test }
  | .copy j =>
    { s with
      safeHop := Function.update s.safeHop j (s.hopBuf j)
      pc := if j + 1 < hopBufSz depth then .copy (j + 1) else .resetPos }
  | .resetPos => { s with hopPos := 0, pc := .clearReady }
  | .clearReady => { s with hopReady := false, pc := .dmaArm }
  | .dmaArm => { s.dmaArm with pc := .push }
  | .push =>
    { s with
      pushed := s.pushed ++ [(s.handedOver, (List.range (hopBufSz depth)).map s.safeHop)]
      pc := .test }

/-- One event. -/
def step (s : Sys) : Event → Sys
  | .word => s.word depth i2s
  | .complete => s.complete depth
  | .irq => s.interrupt depth
  | .cpu => s.cpu depth

/-- The states of a run. -/
def run (e : ℕ → Event) : ℕ → Sys := trace (step depth i2s) init e

end Sys

end KwsSoc.Firmware.Hop
