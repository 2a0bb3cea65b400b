import Mathlib.Data.Nat.Count
import Mathlib.Data.Nat.Log
import Mathlib.Tactic
import KwsSoc.Lib.SyncMachine

/-! # The sample player

`peris/xip/xip_sample_player.v`: an AHB master that reads the samples from flash, one after the
other, into a buffer (`Regs.ahb`), and a serialiser that loads the buffer at falling edges of WS
and shifts it out (`Regs.serial`). The two share nothing but the buffer, and the reader does not
wait for the serialiser: which samples are played depends on how many reads end between two
loads (`Paced`). -/

namespace KwsSoc.SamplePlayer

open SyncMachine

/-! ## Registers -/

/-- `ahb_state`. -/
inductive AhbState where
  | addr
  | data
  deriving DecidableEq

/-- The inputs of one cycle but `m_hrdata`. -/
structure Inputs where
  hready : Bool
  sckRef : Bool
  wsRef : Bool

/-- The registers of a player of `nSamples` samples. -/
structure Regs (nSamples : ℕ) where
  mHaddr : BitVec 32
  mHwrite : Bool
  mHtrans : BitVec 2
  mHsize : BitVec 3
  ahbState : AhbState
  sampleIdx : BitVec (Nat.clog 2 nSamples)
  sampleBuffer : BitVec 32
  bufferValid : Bool
  shiftReg : BitVec 32
  bitPos : BitVec 6
  wsPrev : Bool
  sckPrev : Bool
  sdOut : Bool

namespace Regs

variable {nSamples : ℕ}

/-- Reset; `base` is `SAMPLE_XIP_ADDR`. -/
def reset (base : BitVec 32) : Regs nSamples where
  mHaddr := base
  mHwrite := false
  mHtrans := 2
  mHsize := 2
  ahbState := .addr
  sampleIdx := 0
  sampleBuffer := 0
  bufferValid := false
  shiftReg := 0
  bitPos := 63
  wsPrev := false
  sckPrev := false
  sdOut := false

/-- The AHB master. -/
def ahb (s : Regs nSamples) (base : BitVec 32) (x : Inputs) (hrdata : BitVec 32) :
    Regs nSamples :=
  match s.ahbState with
  | .addr => { s with mHtrans := 0, ahbState := .data }
  | .data =>
    if x.hready then
      { s with
        sampleBuffer := hrdata
        bufferValid := true
        sampleIdx := if s.sampleIdx.toNat = nSamples - 1 then 0 else s.sampleIdx + 1
        mHaddr := if s.sampleIdx.toNat = nSamples - 1 then base else s.mHaddr + 4
        mHtrans := 2
        ahbState := .addr }
    else s

/-- `ws_falling`. -/
def wsFalling (s : Regs nSamples) (x : Inputs) : Bool := s.wsPrev && !x.wsRef

/-- The falling edge of SCK. -/
def sckFalling (s : Regs nSamples) (x : Inputs) : Bool := s.sckPrev && !x.sckRef

/-- The shift register is loaded in this cycle. -/
def loads (s : Regs nSamples) (x : Inputs) : Bool := s.wsFalling x && s.bufferValid

/-- The serialiser's registers after a clock edge, the AHB master's being those of `s'`. -/
def serial (s s' : Regs nSamples) (x : Inputs) : Regs nSamples :=
  { s' with
    wsPrev := x.wsRef
    sckPrev := x.sckRef
    shiftReg := if s.loads x then s.sampleBuffer else s.shiftReg
    bitPos :=
      if s.loads x then 31
      else if s.sckFalling x && s.bitPos.toNat < 32 then s.bitPos - 1
      else s.bitPos
    sdOut := if s.bitPos.toNat < 32 then s.shiftReg.getLsbD s.bitPos.toNat else false }

/-- One clock edge. -/
def step (s : Regs nSamples) (base : BitVec 32) (x : Inputs) (hrdata : BitVec 32) :
    Regs nSamples :=
  s.serial (s.ahb base x hrdata) x

end Regs

/-! ## The player on the bus -/

/-- The player, and the address of the read that the bus has accepted. In the address phase the
player does not look at `m_hready`: it has no data phase open then, and the bus takes the
address. -/
structure Sys (nSamples : ℕ) where
  player : Regs nSamples
  dphAddr : BitVec 32

namespace Sys

variable {nSamples : ℕ}

def start (base : BitVec 32) : Sys nSamples := ⟨Regs.reset base, 0⟩

/-- One clock edge; `mem` is the flash. -/
def step (base : BitVec 32) (mem : BitVec 32 → BitVec 32) (m : Sys nSamples) (x : Inputs) :
    Sys nSamples where
  player := m.player.step base x (mem m.dphAddr)
  dphAddr := if m.player.mHtrans.getLsbD 1 then m.player.mHaddr else m.dphAddr

/-- The state in cycle `n` of a run from reset. -/
def run (base : BitVec 32) (mem : BitVec 32 → BitVec 32) (x : ℕ → Inputs) (n : ℕ) :
    Sys nSamples :=
  trace (step base mem) (start base) x n

end Sys

/-! ## The inputs of a run -/

section Streams

variable (x : ℕ → Inputs)

/-- A read is in its data phase: reads follow each other with one address phase between them. -/
def dataPhase : ℕ → Bool
  | 0 => false
  | n + 1 => !(dataPhase n && (x n).hready)

/-- A read ends in cycle `n`. -/
def readEnds (n : ℕ) : Bool := dataPhase x n && (x n).hready

/-- How many reads have ended before cycle `n`. -/
def reads (n : ℕ) : ℕ := Nat.count (fun k => readEnds x k = true) n

def wsPrev : ℕ → Bool
  | 0 => false
  | n + 1 => (x n).wsRef

def sckPrev : ℕ → Bool
  | 0 => false
  | n + 1 => (x n).sckRef

/-- SCK falls in cycle `n`. -/
def sckFalls (n : ℕ) : Bool := sckPrev x n && !(x n).sckRef

/-- WS falls in cycle `n`, and a sample has been read. -/
def loadAt (n : ℕ) : Bool := wsPrev x n && !(x n).wsRef && decide (0 < reads x n)

/-- Cycles `a` and `b` load the shift register, and no cycle between them does. -/
structure Successive (a b : ℕ) : Prop where
  lt : a < b
  left : loadAt x a = true
  right : loadAt x b = true
  between : ∀ c, a < c → c < b → loadAt x c = false

/-- A read ends in every WS frame. -/
def ReadPerFrame : Prop := ∀ a b, Successive x a b → reads x a < reads x b

/-- The bus keeps pace with WS: from a load to the next one the number of reads that end is `1`
modulo the number of samples. -/
def Paced (nSamples : ℕ) : Prop :=
  ∀ a b, Successive x a b → reads x a + 1 ≡ reads x b [MOD nSamples]

end Streams

/-! ## The reader -/

/-- Sample `i` of the array at `base`. -/
def sample (base : BitVec 32) (mem : BitVec 32 → BitVec 32) (i : ℕ) : BitVec 32 :=
  mem (base + BitVec.ofNat 32 (4 * i))

theorem reads_succ (x : ℕ → Inputs) (n : ℕ) :
    reads x (n + 1) = reads x n + if readEnds x n = true then 1 else 0 :=
  Nat.count_succ _ n

/-- The index of the next sample. -/
theorem add_one_mod {nSamples : ℕ} (hN : 2 ≤ nSamples) (r : ℕ) :
    (r + 1) % nSamples = if r % nSamples = nSamples - 1 then 0 else r % nSamples + 1 := by
  have hlt := Nat.mod_lt r (show nSamples > 0 by omega)
  rw [Nat.add_mod_eq_ite, Nat.mod_eq_of_lt (show 1 < nSamples by omega)]
  split <;> split <;> omega

section Run

variable {nSamples : ℕ} (base : BitVec 32) (mem : BitVec 32 → BitVec 32) (x : ℕ → Inputs)

/-- The state in cycle `n` against the inputs read so far. -/
structure RunInv (m : Sys nSamples) (n : ℕ) : Prop where
  ahbState : m.player.ahbState = if dataPhase x n then .data else .addr
  mHtrans : m.player.mHtrans = if dataPhase x n then 0 else 2
  sampleIdx : m.player.sampleIdx.toNat = reads x n % nSamples
  mHaddr : m.player.mHaddr = base + BitVec.ofNat 32 (4 * (reads x n % nSamples))
  dphAddr : dataPhase x n = true → m.dphAddr = m.player.mHaddr
  bufferValid : m.player.bufferValid = decide (0 < reads x n)
  sampleBuffer : 0 < reads x n →
    m.player.sampleBuffer = sample base mem ((reads x n - 1) % nSamples)
  wsPrev : m.player.wsPrev = wsPrev x n
  sckPrev : m.player.sckPrev = sckPrev x n

theorem start_inv : RunInv base mem x (Sys.start base : Sys nSamples) 0 where
  ahbState := rfl
  mHtrans := rfl
  sampleIdx := by simp [Sys.start, Regs.reset, reads]
  mHaddr := by simp [Sys.start, Regs.reset, reads]
  dphAddr := fun h => absurd h Bool.false_ne_true
  bufferValid := by simp [Sys.start, Regs.reset, reads]
  sampleBuffer := fun h => by simp [reads] at h
  wsPrev := rfl
  sckPrev := rfl

variable {base mem x}

/-- The address phase: the bus takes the address. -/
theorem RunInv.step_addr {m : Sys nSamples} {n : ℕ} (h : RunInv base mem x m n)
    (hd : dataPhase x n = false) : RunInv base mem x (Sys.step base mem m (x n)) (n + 1) := by
  have hr : reads x (n + 1) = reads x n := by simp [reads_succ, readEnds, hd]
  have hphase : dataPhase x (n + 1) = true := by simp [dataPhase, hd]
  have hstep : (Sys.step base mem m (x n)).player =
      m.player.serial { m.player with mHtrans := 0, ahbState := .data } (x n) := by
    show m.player.serial (m.player.ahb base (x n) (mem m.dphAddr)) (x n) = _
    rw [Regs.ahb, h.ahbState, hd]
    rfl
  refine ⟨?_, ?_, ?_, ?_, ?_, ?_, ?_, rfl, rfl⟩
  · rw [hphase, hstep]
    rfl
  · rw [hphase, hstep]
    rfl
  · rw [hr, hstep]
    exact h.sampleIdx
  · rw [hr, hstep]
    exact h.mHaddr
  · -- the bus registers the address that is on show
    intro _
    rw [hstep]
    show (if m.player.mHtrans.getLsbD 1 then m.player.mHaddr else m.dphAddr) = m.player.mHaddr
    rw [h.mHtrans, hd]
    rfl
  · rw [hr, hstep]
    exact h.bufferValid
  · rw [hr, hstep]
    exact h.sampleBuffer

/-- A wait state. -/
theorem RunInv.step_wait {m : Sys nSamples} {n : ℕ} (h : RunInv base mem x m n)
    (hd : dataPhase x n = true) (hh : (x n).hready = false) :
    RunInv base mem x (Sys.step base mem m (x n)) (n + 1) := by
  have hr : reads x (n + 1) = reads x n := by simp [reads_succ, readEnds, hh]
  have hphase : dataPhase x (n + 1) = dataPhase x n := by simp [dataPhase, hd, hh]
  have hstep : (Sys.step base mem m (x n)).player = m.player.serial m.player (x n) := by
    show m.player.serial (m.player.ahb base (x n) (mem m.dphAddr)) (x n) = _
    rw [Regs.ahb, h.ahbState, hd]
    show m.player.serial (if (x n).hready = true then _ else m.player) (x n) = _
    rw [hh, if_neg Bool.false_ne_true]
  refine ⟨?_, ?_, ?_, ?_, ?_, ?_, ?_, rfl, rfl⟩
  · rw [hphase, hstep]
    exact h.ahbState
  · rw [hphase, hstep]
    exact h.mHtrans
  · rw [hr, hstep]
    exact h.sampleIdx
  · rw [hr, hstep]
    exact h.mHaddr
  · intro _
    rw [hstep]
    show (if m.player.mHtrans.getLsbD 1 then m.player.mHaddr else m.dphAddr) = m.player.mHaddr
    rw [h.mHtrans, hd]
    exact h.dphAddr hd
  · rw [hr, hstep]
    exact h.bufferValid
  · rw [hr, hstep]
    exact h.sampleBuffer

/-- The next index, in a register that has room for every index. -/
theorem toNat_sampleIdx_add {nSamples : ℕ} (hN : 2 ≤ nSamples) {i : BitVec (Nat.clog 2 nSamples)}
    (hi : i.toNat < nSamples - 1) : (i + 1).toNat = i.toNat + 1 := by
  have hroom := Nat.le_pow_clog (b := 2) (by decide) nSamples
  have hone : (1 : BitVec (Nat.clog 2 nSamples)).toNat = 1 := by
    show 1 % 2 ^ Nat.clog 2 nSamples = 1
    exact Nat.mod_eq_of_lt (by omega)
  rw [BitVec.toNat_add, hone, Nat.mod_eq_of_lt (by omega)]

/-- The end of a read: the buffer takes the sample, and index and address move on. -/
theorem RunInv.step_done {m : Sys nSamples} {n : ℕ} (hN : 2 ≤ nSamples)
    (h : RunInv base mem x m n) (hd : dataPhase x n = true) (hh : (x n).hready = true) :
    RunInv base mem x (Sys.step base mem m (x n)) (n + 1) := by
  have hr : reads x (n + 1) = reads x n + 1 := by simp [reads_succ, readEnds, hd, hh]
  have hphase : dataPhase x (n + 1) = false := by simp [dataPhase, hd, hh]
  have hidx := h.sampleIdx
  have hlt := Nat.mod_lt (reads x n) (show nSamples > 0 by omega)
  have hstep : (Sys.step base mem m (x n)).player = m.player.serial
      { m.player with
        sampleBuffer := mem m.dphAddr
        bufferValid := true
        sampleIdx := if m.player.sampleIdx.toNat = nSamples - 1 then 0 else m.player.sampleIdx + 1
        mHaddr := if m.player.sampleIdx.toNat = nSamples - 1 then base else m.player.mHaddr + 4
        mHtrans := 2
        ahbState := .addr } (x n) := by
    show m.player.serial (m.player.ahb base (x n) (mem m.dphAddr)) (x n) = _
    rw [Regs.ahb, h.ahbState, hd]
    show m.player.serial (if (x n).hready = true then _ else m.player) (x n) = _
    rw [hh, if_pos rfl]
  refine ⟨?_, ?_, ?_, ?_, ?_, ?_, ?_, rfl, rfl⟩
  · rw [hphase, hstep]
    rfl
  · rw [hphase, hstep]
    rfl
  · rw [hr, add_one_mod hN, ← hidx, hstep]
    show (if m.player.sampleIdx.toNat = nSamples - 1 then (0 : BitVec (Nat.clog 2 nSamples))
      else m.player.sampleIdx + 1).toNat = _
    split
    · rfl
    · exact toNat_sampleIdx_add hN (by omega)
  · rw [hr, add_one_mod hN, ← hidx, hstep]
    show (if m.player.sampleIdx.toNat = nSamples - 1 then base else m.player.mHaddr + 4) = _
    split
    · simp
    · rw [h.mHaddr, hidx, Nat.mul_add, BitVec.ofNat_add, BitVec.add_assoc]
      rfl
  · rw [hphase]
    exact fun hf => absurd hf Bool.false_ne_true
  · rw [hr, hstep]
    simp [Regs.serial]
  · -- the word on the bus is the one at the address of the data phase
    intro _
    rw [hr, Nat.add_sub_cancel, hstep, sample, ← h.mHaddr, ← h.dphAddr hd]
    rfl

/-- **The run of the reader.** -/
theorem run_inv (hN : 2 ≤ nSamples) (base : BitVec 32) (mem : BitVec 32 → BitVec 32)
    (x : ℕ → Inputs) (n : ℕ) : RunInv base mem x (Sys.run base mem x n : Sys nSamples) n := by
  induction n with
  | zero => exact start_inv base mem x
  | succ n ih =>
    show RunInv base mem x (Sys.step base mem (Sys.run base mem x n) (x n)) (n + 1)
    cases hd : dataPhase x n with
    | false => exact ih.step_addr hd
    | true =>
      cases hh : (x n).hready with
      | false => exact ih.step_wait hd hh
      | true => exact ih.step_done hN hd hh

/-! ## The serialiser in a run -/

theorem run_shiftReg (base : BitVec 32) (mem : BitVec 32 → BitVec 32) (x : ℕ → Inputs) (n : ℕ) :
    (Sys.run base mem x (n + 1) : Sys nSamples).player.shiftReg =
      if (Sys.run base mem x n : Sys nSamples).player.loads (x n) then
        (Sys.run base mem x n : Sys nSamples).player.sampleBuffer
      else (Sys.run base mem x n : Sys nSamples).player.shiftReg := rfl

theorem run_bitPos (base : BitVec 32) (mem : BitVec 32 → BitVec 32) (x : ℕ → Inputs) (n : ℕ) :
    (Sys.run base mem x (n + 1) : Sys nSamples).player.bitPos =
      if (Sys.run base mem x n : Sys nSamples).player.loads (x n) then 31
      else if (Sys.run base mem x n : Sys nSamples).player.sckFalling (x n) &&
        (Sys.run base mem x n : Sys nSamples).player.bitPos.toNat < 32 then
        (Sys.run base mem x n : Sys nSamples).player.bitPos - 1
      else (Sys.run base mem x n : Sys nSamples).player.bitPos := rfl

theorem run_sdOut (base : BitVec 32) (mem : BitVec 32 → BitVec 32) (x : ℕ → Inputs) (n : ℕ) :
    (Sys.run base mem x (n + 1) : Sys nSamples).player.sdOut =
      if (Sys.run base mem x n : Sys nSamples).player.bitPos.toNat < 32 then
        (Sys.run base mem x n : Sys nSamples).player.shiftReg.getLsbD
          (Sys.run base mem x n : Sys nSamples).player.bitPos.toNat
      else false := rfl

/-- The serialiser loads when the inputs say so. -/
theorem run_loads (hN : 2 ≤ nSamples) (base : BitVec 32) (mem : BitVec 32 → BitVec 32)
    (x : ℕ → Inputs) (n : ℕ) :
    (Sys.run base mem x n : Sys nSamples).player.loads (x n) = loadAt x n := by
  have h := run_inv hN base mem x n
  rw [Regs.loads, Regs.wsFalling, h.wsPrev, h.bufferValid]
  rfl

/-- A load takes the sample read last. -/
theorem run_load (hN : 2 ≤ nSamples) (base : BitVec 32) (mem : BitVec 32 → BitVec 32)
    {x : ℕ → Inputs} {n : ℕ} (hl : loadAt x n = true) :
    (Sys.run base mem x (n + 1) : Sys nSamples).player.shiftReg =
      sample base mem ((reads x n - 1) % nSamples) := by
  have h := run_inv hN base mem x n
  rw [run_shiftReg, run_loads hN, hl, if_pos rfl]
  apply h.sampleBuffer
  simp only [loadAt, Bool.and_eq_true, decide_eq_true_eq] at hl
  exact hl.2

end Run

end KwsSoc.SamplePlayer
