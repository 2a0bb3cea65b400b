import KwsSoc.Accel.Bench

/-! # The accelerator as a sequential program

What a run of the accelerator computes, with the bus taken away: a program (`Seq`) over the same
buffers and counters whose steps read and write memory at once. One step is one phase of the FSM
(load the weights of a channel, read its bias, fill a patch buffer, multiply, store a byte, move
on). The counters keep their hardware widths, so the program does what the FSM does for every
configuration, including those for which the loops run longer than the buffers are. -/

namespace KwsSoc.Conv1dAccel

open ByteWord

/-! ## Loop bounds and addresses -/

namespace Config

/-- Rounds of a loop that ends on `idx == patch_words - 6'd1` (weight words and MACs). -/
def wordRounds (c : Config) : ℕ := (c.patchWords - 1#6).toNat + 1

/-- Rounds of a loop that ends on `buf_idx == patch_words - 7'd1` (input words). For
`patch_words = 0`, that is 64 words, the comparison is with 127. -/
def loadRounds (c : Config) : ℕ := (c.patchWords.setWidth 7 - 1#7).toNat + 1

/-- Rounds of the loop that ends on `buf_idx == patch_bytes - 7'd1` (weight bytes), provided the
7-bit `buf_idx` can reach that value. -/
def byteRounds (c : Config) : ℕ := (c.patchBytes - 1#16).toNat + 1

/-- First weight byte of channel `cPos`. -/
def wtAddr (c : Config) (cPos : BitVec 8) : BitVec 32 :=
  c.rWtAddr + cPos.setWidth 32 * c.patchBytes.setWidth 32

/-- The weights of channel `cPos` are read as words. -/
def WordPath (c : Config) (cPos : BitVec 8) : Prop :=
  (c.wtAddr cPos).extractLsb' 0 2 = 0#2 ∧ c.patchBytes.extractLsb' 0 2 = 0#2

instance (c : Config) (cPos : BitVec 8) : Decidable (c.WordPath cPos) :=
  inferInstanceAs (Decidable (_ ∧ _))

/-- The byte loop ends: its last index fits the 7-bit counter. -/
def ByteLoopEnds (c : Config) : Prop := c.byteRounds ≤ 128

instance (c : Config) : Decidable c.ByteLoopEnds := inferInstanceAs (Decidable (_ ≤ _))

/-- First byte of the input patch of position `wPos`. -/
def patchAddr (c : Config) (wPos : BitVec 16) : BitVec 32 :=
  c.rSrcAddr + wPos.setWidth 32 * c.rStride.setWidth 32 * c.rCIn.setWidth 32

theorem wordRounds_le (c : Config) : c.wordRounds ≤ 64 := (c.patchWords - 1#6).isLt

theorem loadRounds_le (c : Config) : c.loadRounds ≤ 128 := (c.patchWords.setWidth 7 - 1#7).isLt

end Config

/-! ## Loads and sums -/

/-- The buffer after `n` words from address `a` on have been loaded into it. -/
def loadWords (m : Mem) (a : BitVec 32) (b : WordBuf) : ℕ → WordBuf
  | 0 => b
  | n + 1 => (loadWords m a b n).write n (m.word (a + 4#32 * BitVec.ofNat 32 n))

/-- The buffer after `n` bytes from address `a` on have been packed into it. -/
def loadBytes (m : Mem) (a : BitVec 32) (b : WordBuf) : ℕ → WordBuf
  | 0 => b
  | n + 1 => (loadBytes m a b n).writeLane (n / 4) (BitVec.ofNat 2 n) (m (a + BitVec.ofNat 32 n))

/-- The first `n` word products of an input buffer and a weight buffer. -/
def macSum (inBuf wtBuf : WordBuf) : ℕ → BitVec 32
  | 0 => 0
  | n + 1 => macSum inBuf wtBuf n + mac4 (inBuf (BitVec.ofNat 6 n)) (wtBuf (BitVec.ofNat 6 n))

/-! ## The program -/

/-- Phases of the program. -/
inductive Phase
  | weights | bias | shift | input | ovlp | mac | write | advance | finished
  deriving DecidableEq, Repr

/-- State of the program. `inBuf false` and `inBuf true` are the two ping-pong buffers;
`loadAddr` is the patch the overlapped phase loads. -/
structure Seq where
  phase : Phase
  cPos : BitVec 8
  wPos : BitVec 16
  bufSel : Bool
  inBuf : Bool → WordBuf
  wtBuf : WordBuf
  acc : BitVec 32
  biasVal : BitVec 32
  curShift : BitVec 5
  loadAddr : BitVec 32
  mem : Mem

namespace Seq

/-- The weight buffer before the byte loop: its last word is zeroed. -/
def zeroedWt (c : Config) (wtBuf : WordBuf) : WordBuf :=
  wtBuf.write (c.patchWords.setWidth 32 - 1#32).toNat 0

/-- Load the weights of the channel. A byte loop whose last index the counter cannot reach
never ends, so the program stays where it is. -/
def weights (c : Config) (a : Seq) : Seq :=
  if c.WordPath a.cPos then
    { a with
      phase := .bias, wtBuf := loadWords a.mem (c.wtAddr a.cPos) a.wtBuf c.wordRounds }
  else if c.ByteLoopEnds then
    { a with
      phase := .bias
      wtBuf := loadBytes a.mem (c.wtAddr a.cPos) (zeroedWt c a.wtBuf) c.byteRounds }
  else a

/-- Read the bias of the channel. -/
def bias (c : Config) (a : Seq) : Seq :=
  { a with phase := .shift, biasVal := a.mem.word (c.biasAddr a.cPos) }

/-- Read the shift of the channel. -/
def shift (c : Config) (a : Seq) : Seq :=
  { a with phase := .input, acc := 0, curShift := (a.mem (c.shiftAddr a.cPos)).setWidth 5 }

/-- Load the patch of the first position into the active buffer. -/
def input (c : Config) (a : Seq) : Seq :=
  { a with
    inBuf := Function.update a.inBuf a.bufSel
      (loadWords a.mem (c.patchAddr a.wPos) (a.inBuf a.bufSel) c.loadRounds)
    loadAddr := c.rSrcAddr + c.patchStep
    phase := if 1#16 < c.wOutCnt then .ovlp else .mac }

/-- The accumulator after the multiply phase. -/
def macAcc (c : Config) (a : Seq) : BitVec 32 :=
  a.acc + macSum (a.inBuf a.bufSel) a.wtBuf c.wordRounds

/-- Multiply on the active buffer and load `loadAddr` into the other one. -/
def ovlp (c : Config) (a : Seq) : Seq :=
  { a with
    acc := a.macAcc c
    inBuf := Function.update a.inBuf (!a.bufSel)
      (loadWords a.mem a.loadAddr (a.inBuf (!a.bufSel)) c.loadRounds)
    phase := .write }

/-- Multiply on the active buffer. -/
def mac (c : Config) (a : Seq) : Seq := { a with acc := a.macAcc c, phase := .write }

/-- Store the output byte. -/
def write (c : Config) (a : Seq) : Seq :=
  { a with
    mem := a.mem.set (c.outAddr a.wPos a.cPos) (clipped a.acc a.biasVal a.curShift)
    phase := .advance }

/-- Next position, next channel or the end. -/
def advance (c : Config) (a : Seq) : Seq :=
  if a.wPos < c.wOutCnt - 1#16 then
    { a with
      wPos := a.wPos + 1#16, acc := 0, bufSel := !a.bufSel
      loadAddr := c.rSrcAddr
        + (a.wPos.setWidth 32 + 2#32) * c.rStride.setWidth 32 * c.rCIn.setWidth 32
      phase := if a.wPos + 1#16 < c.wOutCnt - 1#16 then .ovlp else .mac }
  else if a.cPos < c.rCOut - 1#8 then
    { a with wPos := 0, cPos := a.cPos + 1#8, acc := 0, bufSel := false, phase := .weights }
  else { a with wPos := 0, phase := .finished }

/-- One step of the program. -/
def step (c : Config) (a : Seq) : Seq :=
  match a.phase with
  | .weights => a.weights c
  | .bias => a.bias c
  | .shift => a.shift c
  | .input => a.input c
  | .ovlp => a.ovlp c
  | .mac => a.mac c
  | .write => a.write c
  | .advance => a.advance c
  | .finished => a

section Step

variable {c : Config} {a : Seq}

theorem step_of_weights (hp : a.phase = .weights) : a.step c = a.weights c := by
  rw [step, hp]

theorem step_of_bias (hp : a.phase = .bias) : a.step c = a.bias c := by
  rw [step, hp]

theorem step_of_shift (hp : a.phase = .shift) : a.step c = a.shift c := by
  rw [step, hp]

theorem step_of_input (hp : a.phase = .input) : a.step c = a.input c := by
  rw [step, hp]

theorem step_of_ovlp (hp : a.phase = .ovlp) : a.step c = a.ovlp c := by
  rw [step, hp]

theorem step_of_mac (hp : a.phase = .mac) : a.step c = a.mac c := by
  rw [step, hp]

theorem step_of_write (hp : a.phase = .write) : a.step c = a.write c := by
  rw [step, hp]

theorem step_of_advance (hp : a.phase = .advance) : a.step c = a.advance c := by
  rw [step, hp]

theorem step_of_finished (hp : a.phase = .finished) : a.step c = a := by
  rw [step, hp]

end Step

/-- The program at the beginning of a run of the accelerator in state `b`. -/
def start (b : Bench) : Seq where
  phase := .weights
  cPos := 0
  wPos := 0
  bufSel := false
  inBuf s := if s then b.dut.fsm.inBuf1 else b.dut.fsm.inBuf0
  wtBuf := b.dut.fsm.wtBuf
  acc := b.dut.fsm.acc
  biasVal := b.dut.fsm.biasVal
  curShift := b.dut.fsm.curShift
  loadAddr := 0
  mem := b.slave.mem

/-- A finished program stays finished. -/
theorem iterate_step_finished (c : Config) {a : Seq} (h : a.phase = .finished) (n : ℕ) :
    (step c)^[n] a = a :=
  Function.iterate_fixed (by simp [step, h]) n

end Seq

end KwsSoc.Conv1dAccel
