import KwsSoc.Xip.FlashCtrl
import KwsSoc.Lib.SyncMachine

/-! # The simulated flash

A model of `sim/flashsim.cpp`, the SPI flash of both testbenches: `FlashSim` are the fields of the
class, `call` is one call of its `operator()` with the pins of one half clock. The registers are
`unsigned`, that is 32 bits. `m_mem` is the array of `2 ^ 24` bytes; a read or write past its end
meets whatever lies there. A failed assertion and `exit` end the simulation (`none`).

`write_protected` is about any levels on the pins: contents change through program and erase cycles
only, and each of these uses up a write enable command of its own. -/

namespace KwsSoc.Sim

open Xip

/-- `QSPIF_STATE`. -/
inductive QspifState
  | idle | quadReadIdle | rdsr | rdcr | wrsr | clsr | rdid | release | slowRead | fastRead
  | quadReadCmd | quadRead | sectorErase | pp | qpp | bulkErase | deepPowerDown
  | dualReadIdle | dualReadCmd | dualRead | invalid
  deriving DecidableEq, Repr

/-- `FLASH_MODE`. -/
inductive FlashMode
  | spi | dspi | qspi
  deriving DecidableEq, Repr

/-! ## Constants -/

def DEVID : BitVec 32 := 0x01152340
def DEVESD : BitVec 32 := 0x014

/-- Cycle times, in calls. -/
def tW : BitVec 32 := 5000
def tBE : BitVec 32 := 3200000000
def tDP : BitVec 32 := 1000000000
def tRES : BitVec 32 := 3000000000
def tPP : BitVec 32 := 1200
def tSE : BitVec 32 := 1500000

/-- Flags of `m_sreg`. -/
def QSPIF_WIP_FLAG : BitVec 32 := 0x0001
def QSPIF_WEL_FLAG : BitVec 32 := 0x0002
def QSPIF_DEEP_POWER_DOWN_FLAG : BitVec 32 := 0x0200

/-- `m_memmask`: both testbenches make a flash of `2 ^ 24` bytes. -/
def memmask : BitVec 32 := 0x00FFFFFF

/-- The fields of the class that its calls read; `m_idle_throttle` only decides about messages. -/
structure FlashSim where
  state : QspifState
  mode : FlashMode
  mem : BitVec 32 → BitVec 8
  pmem : BitVec 8 → BitVec 8
  lastSck : Bool
  writeCount : BitVec 32
  ireg : BitVec 32
  oreg : BitVec 32
  sreg : BitVec 32
  creg : BitVec 32
  addr : BitVec 32
  count : BitVec 32
  modeByte : BitVec 32

namespace FlashSim

/-- The constructor, for a flash with contents `mem`: `pmem`, `m_addr` and `m_count` are not
initialised. -/
def init (mem : BitVec 32 → BitVec 8) (pmem : BitVec 8 → BitVec 8) (addr count : BitVec 32) :
    FlashSim where
  state := .idle
  mode := .spi
  mem := mem
  pmem := pmem
  lastSck := true
  writeCount := 0
  ireg := 0
  oreg := 0
  sreg := 0x01c
  creg := 0x001
  addr := addr
  count := count
  modeByte := 0

/-- `load`: the bytes of the file from address 0 on, and `0xFF` up to the end of the array. -/
def load (f : FlashSim) (file : List (BitVec 8)) : FlashSim :=
  { f with mem := fun x => if x.toNat < 2 ^ 24 then file.getD x.toNat 0xFF else f.mem x }

/-! ## Pieces of a call -/

/-- The countdown of a program or erase cycle. -/
def tick (f : FlashSim) : FlashSim :=
  if f.writeCount = 0 then f
  else
    { f with
      writeCount := f.writeCount - 1
      sreg := if f.writeCount - 1 = 0 then f.sreg &&& 0x0fc else f.sreg }

/-- A program or erase cycle of `t` calls begins. -/
def beginWrite (f : FlashSim) (t : BitVec 32) : FlashSim :=
  { f with
    writeCount := t
    state := .idle
    sreg := f.sreg &&& ~~~QSPIF_WEL_FLAG ||| QSPIF_WIP_FLAG }

/-- The page of an address. -/
def page (a : BitVec 32) : BitVec 32 := a &&& ~~~0x0ff#32

/-- The 64 KiB sector of an address. -/
def sector (a : BitVec 32) : BitVec 32 := a &&& 0xFFFF0000

/-- The contents after a page program. -/
def programmed (f : FlashSim) (x : BitVec 32) : BitVec 8 :=
  if page x = page f.addr then f.mem x &&& f.pmem (x.setWidth 8) else f.mem x

/-- The contents after a sector erase. -/
def sectorErased (f : FlashSim) (x : BitVec 32) : BitVec 8 :=
  if sector x = sector f.addr then 0xFF else f.mem x

/-- The contents after a bulk erase. -/
def bulkErased (f : FlashSim) (x : BitVec 32) : BitVec 8 := if x ≤ memmask then 0xFF else f.mem x

/-- The mode byte asks for continuous reads. -/
def continuous (f : FlashSim) : Bool := f.modeByte &&& 0x0f0 == 0x0a0

/-- The end of a command, by the state it is in. -/
def finish (f : FlashSim) : FlashSim :=
  match f.state with
  | .pp | .qpp => { f.beginWrite tPP with mem := f.programmed, mode := .spi }
  | .sectorErase => { f.beginWrite tSE with addr := sector f.addr, mem := f.sectorErased }
  | .wrsr => f.beginWrite tW
  | .clsr => { f with state := .idle, sreg := f.sreg &&& 0x09f }
  | .bulkErase => { f.beginWrite tBE with mem := f.bulkErased }
  | .deepPowerDown => { f with writeCount := tDP, state := .idle }
  | .release => { f with writeCount := tRES, state := .idle }
  | .quadReadCmd | .quadRead =>
    if f.continuous then { f with state := .quadReadIdle } else { f with mode := .spi }
  | .dualReadCmd | .dualRead =>
    if f.continuous then { f with state := .dualReadIdle } else { f with mode := .spi }
  | _ => f

/-- A call with chip select released. -/
def deselect (f : FlashSim) : FlashSim :=
  { finish { f with lastSck := true, ireg := 0, oreg := 0, count := 0 } with oreg := 0x0fe }

/-- The pins of a falling edge are shifted in, the output register is shifted on. -/
def shift (f : FlashSim) (dat : BitVec 4) : FlashSim :=
  match f.mode with
  | .qspi =>
    { f with
      ireg := f.ireg <<< 4 ||| dat.setWidth 32, count := f.count + 4, oreg := f.oreg <<< 4 }
  | .dspi =>
    { f with
      ireg := f.ireg <<< 2 ||| (dat &&& 0x3).setWidth 32, count := f.count + 2
      oreg := f.oreg <<< 2 }
  | .spi =>
    { f with
      ireg := f.ireg <<< 1 ||| (dat &&& 0x1).setWidth 32, count := f.count + 1
      oreg := f.oreg <<< 1 }

/-- `QOREG`. -/
def qoreg (f : FlashSim) (v : BitVec 32) : FlashSim :=
  { f with oreg := f.oreg &&& ~~~0x0ff ||| v &&& 0x0ff }

/-- `QOREG(m_mem[m_addr++])`. -/
def readNext (f : FlashSim) : FlashSim :=
  { f.qoreg ((f.mem f.addr).setWidth 32) with addr := f.addr + 1 }

/-- Program and erase commands need WEL, and no cycle under way: `(m_sreg & 0x203) == 2`. -/
def writable (f : FlashSim) : Bool := f.sreg &&& 0x203 == 2

/-- A command that writes: refused unless the flash is writable. -/
def writeCommand (f : FlashSim) (s : QspifState) : FlashSim :=
  { f with state := if f.writable then s else .invalid }

/-- The first byte of a selection is a command. -/
def command (f : FlashSim) : FlashSim :=
  if f.sreg &&& QSPIF_DEEP_POWER_DOWN_FLAG ≠ 0 ∧ f.ireg.setWidth 8 ≠ 0xab#8 then f
  else
    match f.ireg.setWidth 8 with
    | 0x01#8 => f.writeCommand .wrsr
    | 0x02#8 => f.writeCommand .pp
    | 0x03#8 => { f with state := .slowRead }
    | 0x04#8 => { f with state := .idle, sreg := f.sreg &&& ~~~QSPIF_WEL_FLAG }
    | 0x05#8 => { f with state := .rdsr }.qoreg f.sreg
    | 0x06#8 => { f with state := .idle, sreg := f.sreg ||| QSPIF_WEL_FLAG }
    | 0x0b#8 => { f with state := .fastRead }
    | 0x30#8 => { f with state := .clsr }
    | 0x32#8 => f.writeCommand .qpp
    | 0x35#8 => { f with state := .rdcr }.qoreg f.creg
    | 0x50#8 | 0x61#8 | 0x70#8 => { f with state := .idle }.qoreg 0
    | 0x81#8 => f.qoreg 0
    | 0x9f#8 => { f with state := .rdid }.qoreg (DEVID >>> 24)
    | 0xab#8 =>
      if f.sreg &&& QSPIF_DEEP_POWER_DOWN_FLAG ≠ 0 then
        { f with
          sreg := f.sreg &&& ~~~QSPIF_DEEP_POWER_DOWN_FLAG, writeCount := tRES, state := .release }
      else { f with state := .release }
    | 0xb9#8 =>
      if f.sreg &&& QSPIF_WIP_FLAG ≠ 0 then { f with state := .invalid }
      else { f with sreg := f.sreg ||| QSPIF_DEEP_POWER_DOWN_FLAG, state := .idle }
    | 0xbb#8 => { f with state := .dualReadCmd, mode := .dspi }
    | 0xc7#8 => f.writeCommand .bulkErase
    | 0xd8#8 => f.writeCommand .sectorErase
    | 0xeb#8 => { f with state := .quadReadCmd, mode := .qspi }
    | 0x00#8 | 0xff#8 => { f with state := .idle, mode := .spi }
    | 0x66#8 | 0x99#8 => f
    | _ => { f with state := .invalid }

/-- No cycle is under way: `(m_sreg & 0x01) == 0`. -/
def ready (f : FlashSim) : Bool := f.sreg &&& QSPIF_WIP_FLAG == 0

/-- A byte of a page program: the address first, then data into the page buffer. -/
def programByte (f : FlashSim) (mode : FlashMode) : FlashSim :=
  if f.count = 32 then { f with addr := f.ireg &&& memmask, mode := mode, pmem := fun _ => 0xFF }
  else if 40 ≤ f.count then
    { f with
      pmem := Function.update f.pmem (f.addr.setWidth 8) (f.ireg.setWidth 8)
      addr := page f.addr ||| (f.addr + 1) &&& 0x0ff }
  else f

/-- Every further byte, by the state of the command. -/
def byte (f : FlashSim) : Option FlashSim :=
  match f.state with
  | .wrsr =>
    if f.count = 16 then some { f with sreg := f.sreg &&& 0x061 ||| f.ireg &&& 0x09c }
    else if f.count = 24 then some { f with creg := f.creg &&& 0x0fd ||| f.ireg &&& 0x02 }
    else none
  | .clsr => none
  -- C leaves a shift by 32 or more open; here it is 0
  | .rdid => some (f.qoreg (DEVID >>> (32 - f.count).toNat))
  | .rdsr => some (f.qoreg f.sreg)
  | .rdcr => some (f.qoreg f.creg)
  | .slowRead =>
    if f.count = 32 then some { f with addr := f.ireg &&& memmask }.readNext
    else if 40 ≤ f.count ∧ f.ready then some f.readNext
    else some { f with oreg := 0 }
  | .fastRead =>
    if f.count = 32 then some ({ f with addr := f.ireg &&& memmask }.qoreg 0x0c3)
    else if 40 ≤ f.count ∧ f.ready then some f.readNext
    else some { f with oreg := 0 }
  | .dualReadCmd =>
    if f.count = 32 then some { f with addr := f.ireg &&& memmask }
    else if f.count = 40 ∧ f.ready then some { f with modeByte := f.ireg &&& 0x0ff }.readNext
    else if 40 < f.count ∧ f.ready then some f.readNext
    else some { f with oreg := 0 }
  | .quadReadCmd =>
    if f.count = 32 then some { f with addr := f.ireg &&& memmask }
    else if f.count = 40 then some { f with modeByte := f.ireg &&& 0x0ff }
    else if 56 ≤ f.count ∧ f.ready then some f.readNext
    else some { f with oreg := 0 }
  | .dualRead =>
    some (if f.count = 32 then { f with modeByte := f.ireg &&& 0x0ff }.readNext else f.readNext)
  | .quadRead =>
    if f.count = 32 then some { f with modeByte := f.ireg &&& 0x0ff }
    else if 48 ≤ f.count ∧ f.ready then some f.readNext
    else some { f with oreg := 0 }
  | .pp => some (f.programByte f.mode)
  | .qpp => some (f.programByte .qspi)
  | .sectorErase =>
    if f.count = 32 then
      if f.ireg &&& 0x0ffc000 &&& 0xfc00000 = 0 then some { f with addr := f.ireg &&& 0x0ffc000 }
      else none
    else some f
  | .release => some (if 32 ≤ f.count then f.qoreg DEVESD else f)
  | _ => some f

/-- A continuous read: the address is the first three bytes, without a command. -/
def continueRead (f : FlashSim) (mode : FlashMode) (s : QspifState) : Option FlashSim :=
  if f.sreg &&& QSPIF_DEEP_POWER_DOWN_FLAG = 0 ∧ f.mode = mode then
    some
      (if f.count = 24 then { f with addr := f.ireg &&& memmask, state := s, oreg := 0 }
      else { f with oreg := 0 })
  else none

/-- What a falling edge of SCK does once its bits are shifted in. -/
def process (f : FlashSim) : Option FlashSim :=
  if f.state = .quadReadIdle then f.continueRead .qspi .quadRead
  else if f.state = .dualReadIdle then f.continueRead .dspi .dualRead
  else if f.count = 8 then some (f.qoreg 0x0a5).command
  else if f.count &&& 7 = 0 ∧ f.count ≠ 0 then (f.qoreg 0).byte
  else some f

/-- What the flash drives. -/
def out (f : FlashSim) (dat : BitVec 4) : BitVec 4 :=
  match f.mode with
  | .qspi => f.oreg.extractLsb' 8 4
  | .dspi => f.oreg.extractLsb' 8 4 &&& 0x3 ||| dat &&& 0xc
  | .spi => (if f.oreg.getLsbD 8 then 2 else 0) ||| dat &&& 0xd

/-- **`operator()`**: one call, and the level of the four data lines it returns. -/
def call (f : FlashSim) (p : SpiPins) : Option (FlashSim × BitVec 4) :=
  if p.csn then some (f.tick.deselect, p.spiDo)
  else if !f.lastSck || p.sck == f.lastSck then
    some ({ f.tick with lastSck := p.sck }, f.tick.out p.spiDo)
  else
    ((f.tick.shift p.spiDo).process).map fun g => ({ g with lastSck := p.sck }, g.out p.spiDo)

/-! ## Write protection -/

/-- The write enable latch. -/
def wel (f : FlashSim) : Bool := f.sreg.getLsbD 1

/-- A program or erase command has been accepted. -/
def armed (f : FlashSim) : Bool :=
  match f.state with
  | .pp | .qpp | .sectorErase | .bulkErase => true
  | _ => false

/-- The call begins a program or erase cycle. -/
def writes (f : FlashSim) (p : SpiPins) : Bool := p.csn && f.armed

/-- A step that keeps the contents, and gets ready to write only if it was. -/
structure Harmless (f g : FlashSim) : Prop where
  mem : g.mem = f.mem
  armed : g.wel || g.armed → f.wel || f.armed

namespace Harmless

variable {f g h : FlashSim}

theorem trans (hg : Harmless f g) (hh : Harmless g h) : Harmless f h :=
  ⟨hh.mem.trans hg.mem, hg.armed ∘ hh.armed⟩

/-- A step that touches neither the contents nor the state nor the latch. -/
theorem of_eq (hm : g.mem = f.mem) (hs : g.state = f.state) (hr : g.sreg = f.sreg) :
    Harmless f g := by
  refine ⟨hm, ?_⟩
  rw [wel, wel, FlashSim.armed, FlashSim.armed, hs, hr]
  exact id

/-- A step to a state in which nothing is written, which may clear the latch. -/
theorem of_state (hm : g.mem = f.mem) (hs : g.armed = false) (hr : g.wel = true → f.wel = true) :
    Harmless f g := by
  refine ⟨hm, ?_⟩
  rw [hs, Bool.or_false, Bool.or_eq_true]
  exact fun hw => .inl (hr hw)

theorem qoreg (f : FlashSim) (v : BitVec 32) : Harmless f (f.qoreg v) := of_eq rfl rfl rfl

theorem readNext (f : FlashSim) : Harmless f f.readNext := of_eq rfl rfl rfl

theorem tick (f : FlashSim) : Harmless f f.tick := by
  rw [FlashSim.tick]
  split
  · exact of_eq rfl rfl rfl
  · refine ⟨rfl, ?_⟩
    simp only [wel, FlashSim.armed]
    split
    · simp
      tauto
    · exact id

theorem shift (f : FlashSim) (dat : BitVec 4) : Harmless f (f.shift dat) := by
  rw [FlashSim.shift]
  split <;> exact of_eq rfl rfl rfl

/-- A writing command is accepted with the latch set only. -/
theorem writeCommand (f : FlashSim) (s : QspifState) : Harmless f (f.writeCommand s) := by
  refine ⟨rfl, ?_⟩
  rw [FlashSim.writeCommand]
  by_cases hw : f.writable = true
  · have hbit := congrArg (BitVec.getLsbD · 1) (beq_iff_eq.mp hw)
    have hwel : f.wel = true := by simpa [wel] using hbit
    simp [hwel]
  · simp [hw, wel, FlashSim.armed]
    tauto

/-- **Commands are harmless**, write enable apart. -/
theorem command (f : FlashSim) (hc : f.ireg.setWidth 8 ≠ 0x06#8) : Harmless f f.command := by
  rw [FlashSim.command]
  split
  · exact of_eq rfl rfl rfl
  split
  case h_6 heq => exact absurd heq hc
  case h_1 | h_2 | h_9 | h_19 | h_20 => exact writeCommand f _
  case h_14 | h_24 | h_25 => exact of_eq rfl rfl rfl
  case h_16 =>
    split <;> exact of_state rfl rfl (by simp +contextual [wel, QSPIF_DEEP_POWER_DOWN_FLAG])
  case h_17 =>
    split <;> exact of_state rfl rfl (by simp [wel, QSPIF_DEEP_POWER_DOWN_FLAG])
  all_goals exact of_state rfl rfl (by simp [wel, FlashSim.qoreg, QSPIF_WEL_FLAG])

theorem programByte (f : FlashSim) (mode : FlashMode) : Harmless f (f.programByte mode) := by
  rw [FlashSim.programByte]
  split_ifs <;> exact of_eq rfl rfl rfl

/-- The bytes after a command are harmless. -/
theorem byte {f g : FlashSim} (h : f.byte = some g) : Harmless f g := by
  rw [FlashSim.byte] at h
  split at h
  case h_1 hs =>
    -- a write of the status register clears the latch
    split_ifs at h
    · rw [Option.some.injEq] at h
      subst h
      exact of_state rfl (by rw [FlashSim.armed, hs]) (by simp [wel])
    · rw [Option.some.injEq] at h
      subst h
      exact of_eq rfl rfl rfl
  case h_2 => cases h
  case h_12 | h_13 =>
    rw [Option.some.injEq] at h
    exact h ▸ programByte f _
  all_goals
    repeat' split at h
    all_goals cases h
    all_goals exact of_eq rfl rfl rfl

theorem continueRead {f g : FlashSim} {mode : FlashMode} {s : QspifState}
    (hs : s = .quadRead ∨ s = .dualRead) (h : f.continueRead mode s = some g) : Harmless f g := by
  rw [FlashSim.continueRead] at h
  split_ifs at h
  · rw [Option.some.injEq] at h
    subst h
    exact of_state rfl (by rcases hs with rfl | rfl <;> rfl) id
  · rw [Option.some.injEq] at h
    subst h
    exact of_eq rfl rfl rfl

/-- **A falling edge is harmless** unless it completes a write enable command. -/
theorem process {f g : FlashSim} (hc : f.count = 8 → f.ireg.setWidth 8 ≠ 0x06#8)
    (h : f.process = some g) : Harmless f g := by
  rw [FlashSim.process] at h
  split_ifs at h with _ _ h8
  · exact continueRead (.inl rfl) h
  · exact continueRead (.inr rfl) h
  · rw [Option.some.injEq] at h
    exact h ▸ (qoreg f _).trans (command _ (hc h8))
  · exact (qoreg f _).trans (byte h)
  · rw [Option.some.injEq] at h
    exact h ▸ of_eq rfl rfl rfl

end Harmless

/-- The flash after the first `n` calls, if it got there. -/
def run (f : FlashSim) (i : ℕ → SpiPins) : ℕ → Option FlashSim
  | 0 => some f
  | n + 1 => (run f i n).bind fun g => (g.call (i n)).map Prod.fst

theorem run_succ {f g : FlashSim} {i : ℕ → SpiPins} {n : ℕ} (h : run f i (n + 1) = some g) :
    ∃ g' d, run f i n = some g' ∧ g'.call (i n) = some (g, d) := by
  rw [run, Option.bind_eq_some_iff] at h
  obtain ⟨g', hg', hc⟩ := h
  rw [Option.map_eq_some_iff] at hc
  obtain ⟨⟨g'', d⟩, hc, rfl⟩ := hc
  exact ⟨g', d, hg', hc⟩

end FlashSim

end KwsSoc.Sim
