import KwsSoc.Accel.Sequential

/-! # Relating the clocked accelerator to its program

`Rel c a b` says that the closed system `b` is in the middle of the phase `a` of the program: for
each FSM state, which registers already hold what the phase computes and how far its loops have
come. `Rel` speaks of the memory with the pending write applied (`Bench.effMem`); the frame
lemma `effMem_step` says which edges leave it alone. `Burst` is the bus half of a read loop. -/

namespace KwsSoc.Conv1dAccel

open ByteWord

/-- The two input buffers, indexed as the program indexes them. -/
def Fsm.inBuf (r : Fsm) (s : Bool) : WordBuf := if s then r.inBuf1 else r.inBuf0

namespace Bench

/-! ## Edges, component by component -/

/-- Abbreviation for the FSM registers. -/
abbrev fsm (b : Bench) : Fsm := b.dut.fsm

theorem step_fsm (b : Bench) (x : BenchIn) :
    (b.step x).fsm = b.fsm.step b.dut.cfg x.apb.startPulse x.hready (b.hrdata x) := rfl

theorem step_slave (b : Bench) (x : BenchIn) :
    (b.step x).slave = b.slave.step x.hready b.fsm.masterOut := rfl

/-- Without a register write the configuration stays. -/
theorem step_cfg (b : Bench) {x : BenchIn} (hq : x.apb.isWrite = false) :
    (b.step x).dut.cfg = b.dut.cfg := by
  simp [step, Accel.step, Config.step, hq]

theorem startPulse_eq_false {q : ApbReq} (hq : q.isWrite = false) : q.startPulse = false := by
  simp [ApbReq.startPulse, hq]

/-- A slave that is not ready does not move. -/
theorem step_slave_stall (b : Bench) {x : BenchIn} (hr : x.hready = false) :
    (b.step x).slave = b.slave := by
  simp [step_slave, Slave.step, hr]

/-- The address phase a ready slave captures. -/
theorem step_slave_ready (b : Bench) {x : BenchIn} (hr : x.hready = true) :
    (b.step x).slave =
      { apValid := b.fsm.htrans.getLsbD 1, apAddr := b.fsm.haddr, apWr := b.fsm.hwrite
        apSz := b.fsm.hsize, mem := b.effMem } := by
  simp [step_slave, Slave.step, hr, Fsm.masterOut, effMem, Slave.settled]

/-- **Frame lemma for the memory.** An edge on which no write is accepted, and which either
keeps `hwdata` or has no stalled write that still needs it, keeps the effective memory. -/
theorem effMem_step (b : Bench) (x : BenchIn)
    (hacc : b.fsm.htrans.getLsbD 1 = true → b.fsm.hwrite = false)
    (hdata : (b.step x).fsm.hwdata = b.fsm.hwdata ∨ x.hready = true ∨
      b.slave.writePending = false) :
    (b.step x).effMem = b.effMem := by
  cases hr : x.hready with
  | true =>
    have hnew : (b.step x).slave.writePending = false := by
      rw [step_slave_ready b hr, Slave.writePending]
      cases ht : b.fsm.htrans.getLsbD 1
      · simp
      · simp [hacc ht]
    rw [effMem, Slave.settled, hnew, step_slave_ready b hr]
    rfl
  | false =>
    rw [effMem, effMem, step_slave_stall b hr]
    rcases hdata with h | h | h
    · exact congrArg b.slave.settled h
    · simp [hr] at h
    · simp [Slave.settled, h]

/-! ## What an edge leaves alone -/

/-- The multiply half writes the multiply registers only. -/
theorem sMacOvlpMac_eq (r : Fsm) :
    r.sMacOvlpMac =
      { r with
        acc := r.sMacOvlpMac.acc, macIdx := r.sMacOvlpMac.macIdx
        macDone := r.sMacOvlpMac.macDone } := by
  unfold Fsm.sMacOvlpMac
  split
  · rfl
  · dsimp only
    split <;> rfl

/-- The load half reads no multiply register, and writes the load registers only. -/
theorem sMacOvlpLoad_eq (r : Fsm) (a : BitVec 32) (m : BitVec 6) (dn hready : Bool)
    (d : BitVec 32) :
    Fsm.sMacOvlpLoad { r with acc := a, macIdx := m, macDone := dn } hready d =
      { r with
        acc := a, macIdx := m, macDone := dn
        haddr := (r.sMacOvlpLoad hready d).haddr, htrans := (r.sMacOvlpLoad hready d).htrans
        rWait := (r.sMacOvlpLoad hready d).rWait, inBuf0 := (r.sMacOvlpLoad hready d).inBuf0
        inBuf1 := (r.sMacOvlpLoad hready d).inBuf1, bufIdx := (r.sMacOvlpLoad hready d).bufIdx
        loadDone := (r.sMacOvlpLoad hready d).loadDone } := by
  simp only [Fsm.sMacOvlpLoad]
  split_ifs <;> rfl

/-- **The two halves of `S_MAC_OVLP` touch disjoint registers**: the edge takes the multiply
registers from one half and the load registers from the other. -/
theorem sMacOvlp_eq (r : Fsm) (hready : Bool) (d : BitVec 32) :
    r.sMacOvlp hready d =
      { r with
        acc := r.sMacOvlpMac.acc, macIdx := r.sMacOvlpMac.macIdx, macDone := r.sMacOvlpMac.macDone
        haddr := (r.sMacOvlpLoad hready d).haddr, htrans := (r.sMacOvlpLoad hready d).htrans
        rWait := (r.sMacOvlpLoad hready d).rWait, inBuf0 := (r.sMacOvlpLoad hready d).inBuf0
        inBuf1 := (r.sMacOvlpLoad hready d).inBuf1, bufIdx := (r.sMacOvlpLoad hready d).bufIdx
        loadDone := (r.sMacOvlpLoad hready d).loadDone
        state := if r.macDone && r.loadDone then .writeAddr else r.state } := by
  have h : r.sMacOvlpMac.sMacOvlpLoad hready d = _ :=
    (congrArg (Fsm.sMacOvlpLoad · hready d) (sMacOvlpMac_eq r)).trans
      (sMacOvlpLoad_eq r _ _ _ hready d)
  rw [Fsm.sMacOvlp, h]
  split <;> rfl

end Bench

/-- **What an edge leaves alone**, and the states it does not lead to, by the state it is in. -/
structure Fsm.Keeps (r r' : Fsm) : Prop where
  hwdata : r.state ≠ .writeAddr → r'.hwdata = r.hwdata
  hwrite : r.state ≠ .writeAddr → r'.hwrite = true → r.hwrite = true
  rDone : r.state ≠ .idle → r.state ≠ .done → r'.rDone = r.rDone
  busy : r.state ≠ .idle → r.state ≠ .done → r'.state ≠ .idle
  macIdx : r.state ≠ .inData → r.state ≠ .mac → r.state ≠ .macOvlp → r.state ≠ .advance →
    r'.macIdx = r.macIdx ∧ r'.state ≠ .mac ∧ r'.state ≠ .macOvlp

theorem Fsm.step_keeps (c : Config) (st hr : Bool) (d : BitVec 32) (r : Fsm) :
    r.Keeps (r.step c st hr d) := by
  cases hs : r.state
  case macOvlp =>
    rw [step_of_macOvlp hs, Bench.sMacOvlp_eq]
    constructor <;> simp [hs]
    split <;> simp
  all_goals
    simp only [step, hs, sIdle, sInit, sInAddr, sInData, sWtAddr, sWtData, sMac, sBiasAddr,
      sBiasData, sWtDataW, sShiftData, sWriteAddr, sWriteData, sAdvance, sDone]
    repeat' split
    all_goals constructor <;> simp [hs]

namespace Bench

/-! ## Read loops on the bus -/

/-- **A read loop on the bus**, `j` data phases after its beginning: addresses run from `A` in
steps of `inc`. While `rWait` holds, the first address waits to be accepted; afterwards address
`j` is in its data phase and address `j + 1` in its address phase. -/
structure Burst (b : Bench) (sz : BitVec 3) (inc A : BitVec 32) (j : ℕ) : Prop where
  hwrite : b.fsm.hwrite = false
  hsize : b.fsm.hsize = sz
  htrans : b.fsm.htrans.getLsbD 1 = true
  pipe : (b.fsm.rWait = true ∧ j = 0 ∧ b.fsm.haddr = A) ∨
    (b.fsm.rWait = false ∧ b.slave.apValid = true ∧ b.slave.apWr = false ∧ b.slave.apSz = sz ∧
      b.slave.apAddr = A + inc * BitVec.ofNat 32 j ∧
      b.fsm.haddr = A + inc * BitVec.ofNat 32 (j + 1))

namespace Burst

variable {b : Bench} {x : BenchIn} {sz : BitVec 3} {inc A : BitVec 32} {j : ℕ}

/-- A ready edge that steps the address moves the loop on: the first accepts address 0, each
later one ends a data phase. -/
theorem next (h : Burst b sz inc A j) (hr : x.hready = true)
    (hwrite : (b.step x).fsm.hwrite = b.fsm.hwrite) (hsize : (b.step x).fsm.hsize = b.fsm.hsize)
    (htrans : (b.step x).fsm.htrans.getLsbD 1 = true) (hwait : (b.step x).fsm.rWait = false)
    (haddr : (b.step x).fsm.haddr = b.fsm.haddr + inc) :
    Burst (b.step x) sz inc A (if b.fsm.rWait then 0 else j + 1) := by
  refine ⟨hwrite.trans h.hwrite, hsize.trans h.hsize, htrans, Or.inr ⟨hwait, ?_⟩⟩
  rw [step_slave_ready b hr, haddr]
  refine ⟨h.htrans, h.hwrite, h.hsize, ?_⟩
  rcases h.pipe with ⟨hw, -, ha⟩ | ⟨hw, -, -, -, -, ha⟩
  · simp [hw, ha]
  · refine ⟨by simp [hw, ha], ?_⟩
    simp only [hw, ha, Bool.false_eq_true, if_false, BitVec.add_assoc]
    rw [← BitVec.mul_one inc, BitVec.mul_assoc, BitVec.mul_assoc, ← BitVec.mul_add]
    simp [BitVec.ofNat_add]

/-- During a data phase of the loop no write is pending. -/
theorem not_writePending (h : Burst b sz inc A j) (hw : b.fsm.rWait = false) :
    b.slave.writePending = false := by
  rcases h.pipe with ⟨hw', -, -⟩ | ⟨-, -, hwr, -⟩
  · simp [hw] at hw'
  · simp [Slave.writePending, hwr]

/-- The word a ready data phase of a word loop returns. -/
theorem read_word (h : Burst b HSIZE_WORD inc A j) (hw : b.fsm.rWait = false)
    (hr : x.hready = true) :
    b.hrdata x = b.effMem.word (A + inc * BitVec.ofNat 32 j) := by
  have hp := h.not_writePending hw
  rcases h.pipe with ⟨hw', -, -⟩ | ⟨-, hv, hwr, hs, ha, -⟩
  · simp [hw] at hw'
  · simp [hrdata, hr, Slave.hrdata, hv, hwr, hs, ha, effMem, Slave.settled, hp]

/-- The byte a ready data phase of a byte loop returns, in the lane of its address. -/
theorem read_byte (h : Burst b HSIZE_BYTE inc A j) (hw : b.fsm.rWait = false)
    (hr : x.hready = true) {l : BitVec 2}
    (hl : l = (A + inc * BitVec.ofNat 32 j).extractLsb' 0 2) :
    byteLane (b.hrdata x) l = b.effMem (A + inc * BitVec.ofNat 32 j) := by
  have hp := h.not_writePending hw
  rcases h.pipe with ⟨hw', -, -⟩ | ⟨-, hv, hwr, hs, ha, -⟩
  · simp [hw] at hw'
  · have hne : ¬ (HSIZE_BYTE = HSIZE_WORD) := by decide
    simp only [hrdata, hr, Slave.hrdata, hv, hwr, hs, ha, effMem, Slave.settled, hp, hne]
    simpa [hl] using byteLane_word_wordAlign b.slave.mem (A + inc * BitVec.ofNat 32 j)

end Burst

/-! ## The relation -/

/-- What every FSM state after `S_INIT` shares with the program. -/
structure Shared (c : Config) (a : Seq) (b : Bench) : Prop where
  cfg : b.dut.cfg = c
  patchBytes : b.fsm.patchBytes = c.patchBytes
  patchWords : b.fsm.patchWords = c.patchWords
  wOutCnt : b.fsm.wOutCnt = c.wOutCnt
  cPos : b.fsm.cPos = a.cPos
  wPos : b.fsm.wPos = a.wPos
  bufSel : b.fsm.bufSel = a.bufSel
  rDone : b.fsm.rDone = false
  mem : b.effMem = a.mem

/-- The buffers hold what the program's buffers hold. -/
structure SameBufs (a : Seq) (b : Bench) : Prop where
  inBuf : b.fsm.inBuf = a.inBuf
  wtBuf : b.fsm.wtBuf = a.wtBuf

/-- Bias and shift of the channel are loaded. -/
structure SameCoef (a : Seq) (b : Bench) : Prop where
  biasVal : b.fsm.biasVal = a.biasVal
  curShift : b.fsm.curShift = a.curShift

/-- Progress of the multiply loop: `m` words are done. -/
def MacProgress (c : Config) (a : Seq) (r : Fsm) : Prop :=
  ∃ m < c.wordRounds, r.macIdx = BitVec.ofNat 6 m ∧
    r.acc = a.acc + macSum (a.inBuf a.bufSel) a.wtBuf m

/-- The multiply half of the overlapped phase: under way or done. -/
def MacHalf (c : Config) (a : Seq) (r : Fsm) : Prop :=
  (r.macDone = false ∧ MacProgress c a r) ∨ (r.macDone = true ∧ r.acc = a.macAcc c)

/-- Progress of an input load into buffer `s` from address `A`: `j` words are loaded. -/
def LoadProgress (c : Config) (a : Seq) (b : Bench) (s : Bool) (A : BitVec 32) : Prop :=
  ∃ j < c.loadRounds, b.fsm.bufIdx = BitVec.ofNat 7 j ∧
    b.fsm.inBuf = Function.update a.inBuf s (loadWords a.mem A (a.inBuf s) j) ∧
    Burst b HSIZE_WORD 4#32 A j

/-- The load half of the overlapped phase: under way or done. -/
def LoadHalf (c : Config) (a : Seq) (b : Bench) : Prop :=
  (b.fsm.loadDone = false ∧ LoadProgress c a b (!a.bufSel) a.loadAddr) ∨
    (b.fsm.loadDone = true ∧ b.fsm.htrans = HTRANS_IDLE ∧
      b.fsm.inBuf = Function.update a.inBuf (!a.bufSel)
        (loadWords a.mem a.loadAddr (a.inBuf (!a.bufSel)) c.loadRounds))

/-- **The relation between program and clocked system**, by FSM state. -/
def Rel (c : Config) (a : Seq) (b : Bench) : Prop :=
  match b.fsm.state with
  | .idle => a.phase = .finished ∧ b.dut.cfg = c ∧ b.fsm.rDone = true ∧
      b.fsm.htrans = HTRANS_IDLE ∧ b.effMem = a.mem
  | .init => a.phase = .weights ∧ b.dut.cfg = c ∧ b.fsm.rDone = false ∧
      b.fsm.htrans = HTRANS_IDLE ∧ b.effMem = a.mem ∧ SameBufs a b ∧
      a.cPos = 0 ∧ a.wPos = 0 ∧ a.bufSel = false
  | .wtAddr => a.phase = .weights ∧ Shared c a b ∧ SameBufs a b ∧ b.fsm.htrans = HTRANS_IDLE
  | .wtDataW => a.phase = .weights ∧ Shared c a b ∧ c.WordPath a.cPos ∧ b.fsm.inBuf = a.inBuf ∧
      ∃ j < c.wordRounds, b.fsm.wtWordIdx = BitVec.ofNat 6 j ∧
        b.fsm.wtBuf = loadWords a.mem (c.wtAddr a.cPos) a.wtBuf j ∧
        Burst b HSIZE_WORD 4#32 (c.wtAddr a.cPos) j
  | .wtData => a.phase = .weights ∧ Shared c a b ∧ ¬ c.WordPath a.cPos ∧
      b.fsm.inBuf = a.inBuf ∧ b.fsm.hwrite = false ∧
      b.fsm.rWtLane0 = (c.wtAddr a.cPos).extractLsb' 0 2 ∧
      (c.ByteLoopEnds → ∃ j < c.byteRounds, b.fsm.bufIdx = BitVec.ofNat 7 j ∧
        b.fsm.wtBuf = loadBytes a.mem (c.wtAddr a.cPos) (Seq.zeroedWt c a.wtBuf) j ∧
        Burst b HSIZE_BYTE 1#32 (c.wtAddr a.cPos) j)
  | .biasAddr => a.phase = .bias ∧ Shared c a b ∧ SameBufs a b ∧ b.fsm.htrans = HTRANS_IDLE
  | .biasData => a.phase = .bias ∧ Shared c a b ∧ SameBufs a b ∧
      Burst b HSIZE_WORD 0#32 (c.biasAddr a.cPos) 0
  | .shiftData => a.phase = .shift ∧ Shared c a b ∧ SameBufs a b ∧ b.fsm.biasVal = a.biasVal ∧
      b.fsm.rShiftLane = (c.shiftAddr a.cPos).extractLsb' 0 2 ∧
      Burst b HSIZE_BYTE 0#32 (c.shiftAddr a.cPos) 0
  | .inAddr => a.phase = .input ∧ Shared c a b ∧ SameBufs a b ∧ SameCoef a b ∧
      b.fsm.acc = a.acc ∧ b.fsm.htrans = HTRANS_IDLE
  | .inData => a.phase = .input ∧ Shared c a b ∧ b.fsm.wtBuf = a.wtBuf ∧ SameCoef a b ∧
      b.fsm.acc = a.acc ∧ LoadProgress c a b a.bufSel (c.patchAddr a.wPos)
  | .macOvlp => a.phase = .ovlp ∧ Shared c a b ∧ b.fsm.wtBuf = a.wtBuf ∧ SameCoef a b ∧
      MacHalf c a b.fsm ∧ LoadHalf c a b
  | .mac => a.phase = .mac ∧ Shared c a b ∧ SameBufs a b ∧ SameCoef a b ∧
      MacProgress c a b.fsm ∧ b.fsm.htrans = HTRANS_IDLE
  | .writeAddr => a.phase = .write ∧ Shared c a b ∧ SameBufs a b ∧ SameCoef a b ∧
      b.fsm.acc = a.acc ∧ b.fsm.htrans = HTRANS_IDLE
  | .writeData => a.phase = .write ∧ Shared c a b ∧ SameBufs a b ∧ SameCoef a b ∧
      b.slave.writePending = false ∧
      b.fsm.masterOut =
        ⟨HTRANS_NONSEQ, true, HSIZE_BYTE, c.outAddr a.wPos a.cPos,
          ofLanes (clipped a.acc a.biasVal a.curShift) (clipped a.acc a.biasVal a.curShift)
            (clipped a.acc a.biasVal a.curShift) (clipped a.acc a.biasVal a.curShift)⟩
  | .advance => a.phase = .advance ∧ Shared c a b ∧ SameBufs a b ∧ SameCoef a b ∧
      b.fsm.htrans = HTRANS_IDLE
  | .done => a.phase = .finished ∧ b.dut.cfg = c ∧ b.fsm.rDone = false ∧
      b.fsm.htrans = HTRANS_IDLE ∧ b.effMem = a.mem

/-- Edges left in the multiply half. -/
def macRank (r : Fsm) : ℕ := if r.macDone then 0 else 64 - r.macIdx.toNat

/-- Edges left in the load half, if the slave stays ready. -/
def loadRank (r : Fsm) : ℕ :=
  if r.loadDone then 0 else 128 - r.bufIdx.toNat + if r.rWait then 1 else 0

/-- Edges left in the current phase of the program, at most, if the slave stays ready. -/
def rank (b : Bench) : ℕ :=
  let wait := if b.fsm.rWait then 1 else 0
  match b.fsm.state with
  | .init => 201
  | .wtAddr => 200
  | .wtDataW => 64 - b.fsm.wtWordIdx.toNat + wait
  | .wtData => 128 - b.fsm.bufIdx.toNat + wait
  | .biasAddr => 3
  | .biasData => 1 + wait
  | .shiftData => 1 + wait
  | .inAddr => 200
  | .inData => 128 - b.fsm.bufIdx.toNat + wait
  | .macOvlp => macRank b.fsm + loadRank b.fsm
  | .mac => 64 - b.fsm.macIdx.toNat
  | .writeAddr => 2
  | .writeData => 1
  | .done => 1
  | .advance | .idle => 0

end Bench

end KwsSoc.Conv1dAccel
