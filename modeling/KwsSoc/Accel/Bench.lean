import KwsSoc.Accel.Rtl
import KwsSoc.Lib.SyncMachine

/-! # The accelerator on its AHB-Lite slave

The slave model of `dv/conv1d_accel_tb.v` over a 32-bit byte-addressed memory, and the closed
system of accelerator and slave (`Bench`). The address phase is captured in cycles with
`hready = 1`; a write is sampled, and a read is valid, in the first ready cycle of its data
phase. What the slave drives on `hrdata` in a stalled cycle is left open (`BenchIn.junk`). -/

namespace KwsSoc.Conv1dAccel

open ByteWord SyncMachine

/-! ## Memory -/

/-- A byte-addressed memory. -/
abbrev Mem := BitVec 32 → BitVec 8

namespace Mem

/-- The four bytes from address `a` on, little end first. -/
def word (m : Mem) (a : BitVec 32) : BitVec 32 := ofLanes (m a) (m (a + 1)) (m (a + 2)) (m (a + 3))

/-- The memory with one byte overwritten. -/
def set (m : Mem) (a : BitVec 32) (v : BitVec 8) : Mem := fun x => if x = a then v else m x

end Mem

/-- `{a[31:2], 2'b00}`. -/
def wordAlign (a : BitVec 32) : BitVec 32 := a.extractLsb' 2 30 ++ 0#2

/-- An address is its aligned address plus its lane. -/
theorem wordAlign_add_lane (a : BitVec 32) : wordAlign a + (a.extractLsb' 0 2).setWidth 32 = a := by
  apply BitVec.eq_of_toNat_eq
  have h := a.isLt
  simp only [wordAlign, BitVec.toNat_add, BitVec.toNat_append, BitVec.extractLsb'_toNat,
    BitVec.toNat_setWidth, BitVec.toNat_ofNat, Nat.shiftLeft_eq, Nat.shiftRight_eq_div_pow,
    Nat.or_zero, Nat.zero_mod]
  omega

/-- Picking an address's lane out of the aligned word that contains it yields its byte. -/
theorem byteLane_word_wordAlign (m : Mem) (a : BitVec 32) :
    byteLane (m.word (wordAlign a)) (a.extractLsb' 0 2) = m a := by
  conv_rhs => rw [← wordAlign_add_lane a]
  rcases lane_cases (a.extractLsb' 0 2) with h | h | h | h <;> simp [h, Mem.word]

/-! ## The slave -/

/-- The slave: the captured address phase and the memory. -/
structure Slave where
  apValid : Bool
  apAddr : BitVec 32
  apWr : Bool
  apSz : BitVec 3
  mem : Mem

/-- The address phase and write data a master drives in one cycle. -/
structure MasterOut where
  htrans : BitVec 2
  hwrite : Bool
  hsize : BitVec 3
  haddr : BitVec 32
  hwdata : BitVec 32

namespace Slave

/-- A captured write whose data phase has not ended. -/
def writePending (s : Slave) : Bool := s.apValid && s.apWr

/-- Read data of the captured address phase: the exact four bytes for a word read, the enclosing
aligned word for a byte read. -/
def hrdata (s : Slave) : BitVec 32 :=
  if s.apValid && !s.apWr then
    if s.apSz = HSIZE_WORD then s.mem.word s.apAddr else s.mem.word (wordAlign s.apAddr)
  else 0xDEADBEEF#32

/-- The memory after the captured write has sampled `hwdata`. -/
def commit (s : Slave) (hwdata : BitVec 32) : Mem :=
  match s.apSz with
  | 0#3 => s.mem.set s.apAddr (byteLane hwdata (s.apAddr.extractLsb' 0 2))
  | 2#3 => (((s.mem.set s.apAddr (byteLane hwdata 0)).set (s.apAddr + 1) (byteLane hwdata 1)).set
      (s.apAddr + 2) (byteLane hwdata 2)).set (s.apAddr + 3) (byteLane hwdata 3)
  | _ => s.mem

/-- One clock edge of the slave. -/
def step (s : Slave) (hready : Bool) (o : MasterOut) : Slave :=
  if hready then
    { apValid := o.htrans.getLsbD 1, apAddr := o.haddr, apWr := o.hwrite, apSz := o.hsize
      mem := if s.writePending then s.commit o.hwdata else s.mem }
  else s

/-- The memory once the pending write, if there is one, has sampled `hwdata`. -/
def settled (s : Slave) (hwdata : BitVec 32) : Mem :=
  if s.writePending then s.commit hwdata else s.mem

end Slave

/-! ## The closed system -/

/-- The AHB master outputs of the accelerator. -/
def Fsm.masterOut (r : Fsm) : MasterOut := ⟨r.htrans, r.hwrite, r.hsize, r.haddr, r.hwdata⟩

/-- Accelerator and slave. -/
structure Bench where
  dut : Accel
  slave : Slave

/-- What the environment decides in one cycle: the APB request, whether the slave is ready, and
what it drives on `hrdata` when it is not. -/
structure BenchIn where
  apb : ApbReq
  hready : Bool
  junk : BitVec 32

namespace Bench

/-- `hrdata` as the accelerator sees it. -/
def hrdata (b : Bench) (x : BenchIn) : BitVec 32 := if x.hready then b.slave.hrdata else x.junk

/-- One clock edge of the closed system. -/
def step (b : Bench) (x : BenchIn) : Bench where
  dut := b.dut.step x.apb x.hready (b.hrdata x)
  slave := b.slave.step x.hready b.dut.fsm.masterOut

/-- A write whose address phase is driven or accepted and whose data phase has not ended. -/
def outstandingWrite (b : Bench) : Bool :=
  b.slave.writePending || (b.dut.fsm.htrans.getLsbD 1 && b.dut.fsm.hwrite)

/-- The memory once every accepted write has landed. -/
def effMem (b : Bench) : Mem := b.slave.settled b.dut.fsm.hwdata

/-- **Ready to be started**: the FSM is in `S_IDLE`, drives no transfer, and none is pending. -/
structure Quiescent (b : Bench) : Prop where
  state : b.dut.fsm.state = .idle
  htrans : b.dut.fsm.htrans = HTRANS_IDLE
  hwrite : b.dut.fsm.hwrite = false
  apValid : b.slave.apValid = false

end Bench

/-- **A run from a START**: the first cycle carries the START write, and no register is written
afterwards (reads, such as the polling of CTRL, are free). -/
structure StartRun (i : ℕ → BenchIn) : Prop where
  start : (i 0).apb.startPulse = true
  quiet : ∀ n, (i (n + 1)).apb.isWrite = false

namespace Bench

/-- **A legal slave** stalls a data phase only: it is ready whenever none is pending. -/
def LegalStalls (b : Bench) (i : ℕ → BenchIn) : Prop :=
  ∀ n, (i n).hready = false → (trace step b i n).slave.apValid = true

/-- Power-on: the accelerator in reset, the slave idle, buffers and memory arbitrary. -/
def powerOn (r : Fsm) (mem : Mem) : Bench := ⟨Accel.reset r, ⟨false, 0, false, 0, mem⟩⟩

theorem quiescent_powerOn (r : Fsm) (mem : Mem) : (powerOn r mem).Quiescent :=
  ⟨rfl, rfl, rfl, rfl⟩

end Bench

/-! ## Concrete runs -/

/-- An FSM in reset with empty buffers. -/
def Fsm.blank : Fsm where
  state := .idle
  rBusy := false
  rDone := false
  htrans := HTRANS_IDLE
  hwrite := false
  hburst := HBURST_SINGLE
  hsize := HSIZE_WORD
  haddr := 0
  hwdata := 0
  wPos := 0
  cPos := 0
  bufIdx := 0
  macIdx := 0
  wtWordIdx := 0
  rWtLane0 := 0
  rWait := false
  acc := 0
  biasVal := 0
  resultByte := 0
  curShift := 0
  rShiftLane := 0
  patchBytes := 0
  patchWords := 0
  wOutCnt := 0
  tailBytes := 0
  bufSel := false
  macDone := false
  loadDone := false
  inBuf0 _ := 0
  inBuf1 _ := 0
  wtBuf _ := 0

/-- START in cycle 0, stalls in the listed cycles and in no other. -/
def startWithStalls (stalls : List ℕ) (n : ℕ) : BenchIn :=
  ⟨if n = 0 then .start else .none, !stalls.contains n, 0⟩

/-- Only the listed cycles stall. -/
theorem mem_of_stalled {stalls : List ℕ} {n : ℕ}
    (h : (startWithStalls stalls n).hready = false) : n ∈ stalls := by
  simpa [startWithStalls] using h

theorem startRun_startWithStalls (stalls : List ℕ) : StartRun (startWithStalls stalls) where
  start := by simp [startWithStalls]; decide
  quiet n := by simp [startWithStalls]; decide

end KwsSoc.Conv1dAccel
