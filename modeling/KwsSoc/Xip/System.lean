import KwsSoc.Xip.Cache
import KwsSoc.Lib.SyncMachine

/-! # The XIP slave with its flash

A model of `peris/xip/ahbl_flash_ctrl_eb_cache.v`: AHB pipeline tracking and fetch FSM around the
cache and the flash controller, closed with the flash (`Slave`). `HREADY` equals `HREADYOUT` while
the slave is in a read data phase and is an input otherwise; a reset may come at any time
(`Event`). -/

namespace KwsSoc.Xip

open ByteWord

/-- States of the fetch FSM. -/
inductive WState
  | idle | startCmd | waitLow | waitHigh
  deriving DecidableEq, Repr

/-- Registers of the wrapper. -/
structure Wrapper where
  dphaseActive : Bool
  dphaseAddr : BitVec 32
  state : WState
  flashStartReg : Bool
  mDoneReg : Bool

/-- Reset values of the wrapper. -/
def Wrapper.reset : Wrapper := ⟨false, 0, .idle, false, false⟩

/-- The slave with `2 ^ l` lines of `2 ^ w` words, and the flash. -/
structure Slave (w l : ℕ) where
  dmc : Dmc w l
  wrap : Wrapper
  ctrl : FlashCtrl w
  flash : SpiFlash

/-- Inputs in one cycle. `hreadyIn` is the bus's `HREADY` when the slave is in no read data phase;
`junk` is what the data pins read when the flash does not drive them. -/
structure XipIn where
  hsel : Bool
  haddr : BitVec 32
  htrans : BitVec 2
  hwrite : Bool
  hreadyIn : Bool
  prefetchEn : Bool
  prefetchBase : BitVec 32
  prefetchLen : BitVec 32
  junk : BitVec 4

/-- One step of the environment: a reset or a clock edge. -/
inductive Event
  | reset
  | clock (x : XipIn)

namespace Slave

variable {w l : ℕ}

/-- Power-on. -/
def powerOn (w l : ℕ) : Slave w l := ⟨.powerOn w l, .reset, .reset w, .deselected⟩

/-- The address input of the controller: `{m_addr[23:5], 5'b00000}`. -/
def ctrlAddr (s : Slave w l) : BitVec 24 := s.dmc.missAddrReg.extractLsb' 5 19 ++ 0#5

/-- The SPI pins. -/
def pins (s : Slave w l) : SpiPins := s.ctrl.pins s.ctrlAddr

/-- `HREADYOUT`. -/
def hreadyOut (s : Slave w l) (prefetchEn : Bool) : Bool :=
  if s.wrap.dphaseActive then s.dmc.hit prefetchEn s.wrap.dphaseAddr else true

/-- `HRDATA`. -/
def hrdata (s : Slave w l) (prefetchEn : Bool) : BitVec 32 :=
  s.dmc.cpuData prefetchEn s.wrap.dphaseAddr

/-- `HREADY` as the slave sees it. -/
def hready (s : Slave w l) (x : XipIn) : Bool :=
  if s.wrap.dphaseActive then s.hreadyOut x.prefetchEn else x.hreadyIn

/-- A selected read transfer in its address phase. -/
def readReq (x : XipIn) : Bool := x.hsel && x.htrans.getLsbD 1 && !x.hwrite

/-- The inputs of the cache. -/
def dmcIn (s : Slave w l) (x : XipIn) : DmcIn w where
  cpuRd := readReq x && s.hready x
  cpuAaddr := x.haddr
  cpuDaddr := s.wrap.dphaseAddr
  cpuDvalid := s.wrap.dphaseActive
  mData := s.ctrl.dataReg
  mWordDone := s.ctrl.wordDone
  mDone := s.wrap.mDoneReg
  prefetchEn := x.prefetchEn
  prefetchBase := x.prefetchBase
  prefetchLen := x.prefetchLen

/-- The wrapper after an edge. -/
def stepWrap (s : Slave w l) (x : XipIn) : Wrapper where
  dphaseActive := if s.hready x then readReq x else s.wrap.dphaseActive
  dphaseAddr := if s.hready x then x.haddr else s.wrap.dphaseAddr
  state :=
    match s.wrap.state with
    | .idle => if s.dmc.mStartReg then .startCmd else .idle
    | .startCmd => .waitLow
    | .waitLow => if s.ctrl.doneReg then .waitLow else .waitHigh
    | .waitHigh => if s.ctrl.doneReg then .idle else .waitHigh
  flashStartReg :=
    match s.wrap.state with
    | .idle => if s.dmc.mStartReg then true else s.wrap.flashStartReg
    | .startCmd => false
    | _ => s.wrap.flashStartReg
  mDoneReg := s.wrap.state == .waitHigh && s.ctrl.doneReg

variable (m : FlashMem) (T : TrstCycles)

/-- One clock edge, over a flash with contents `m`. -/
def clock (s : Slave w l) (x : XipIn) : Slave w l where
  dmc := s.dmc.step (s.dmcIn x)
  wrap := s.stepWrap x
  ctrl := s.ctrl.step T s.wrap.flashStartReg (s.flash.di m s.pins x.junk)
  flash := s.flash.step s.pins

/-- Reset; a deselected flash waits for the next transaction. -/
def reset (s : Slave w l) : Slave w l := ⟨s.dmc.reset, .reset, .reset w, .deselected⟩

/-- One step of a run. -/
def step (s : Slave w l) : Event → Slave w l
  | .reset => s.reset
  | .clock x => s.clock m T x

end Slave

/-! ## What the flash holds -/

/-- First byte of the 32-byte line of an address. -/
def lineAddr (a : BitVec 32) : BitVec 24 := a.extractLsb' 5 19 ++ 0#5

/-- Byte `k` of the line of address `a`. -/
def lineByte (m : FlashMem) (a : BitVec 32) (k : BitVec 5) : BitVec 8 :=
  m (lineAddr a + k.setWidth 24)

/-- The flash word at the low 24 bits of an address, word aligned. -/
def flashWord (m : FlashMem) (a : BitVec 32) : BitVec 32 :=
  let b : BitVec 24 := a.extractLsb' 2 22 ++ 0#2
  ofLanes (m b) (m (b + 1)) (m (b + 2)) (m (b + 3))

end KwsSoc.Xip
