import KwsSoc.Lib.ByteWord

/-! # The quad-SPI flash controller

A model of `peris/xip/flash_ctrl_eb.v` for lines of `2 ^ (w + 2)` bytes, that is
`LW = 32 * 2 ^ w`: the registers (`FlashCtrl`), their update at one clock edge and the SPI pins.
`SpiFlash` is the flash at the other end of the pins. It sees nothing but the pins: nibbles driven
on all four lines are an address and a mode, and after four dummy clocks every clock is answered
with the next nibble of the contents. `TRST_CYCLES` depends on the clock frequency and is a
parameter (`T`). -/

namespace KwsSoc.Xip

/-- A cache line of `2 ^ (w + 2)` bytes. -/
abbrev Line (w : ℕ) := BitVec (w + 2) → BitVec 8

/-- Contents of the flash. -/
abbrev FlashMem := BitVec 24 → BitVec 8

/-- `TRST_CYCLES`: the wait after a flash reset, which the 16-bit tick counter can count. -/
structure TrstCycles where
  val : ℕ
  pos : 0 < val
  fits : val ≤ 2 ^ 16

/-! ## The controller -/

/-- States of the controller. -/
inductive FState
  | idle | cmd66 | wait66 | cmd99 | trstWait | cmdEb | addr | mode | dummy | data | doneWait
  deriving DecidableEq, Repr

/-- Registers of the controller. -/
structure FlashCtrl (w : ℕ) where
  state : FState
  phaseTick : BitVec 16
  isFirst : Bool
  dbyte : BitVec 8
  dataReg : Line w
  byteIdx : BitVec (w + 2)
  wordDone : BitVec w → Bool
  doneReg : Bool

/-- The pins the controller drives. -/
structure SpiPins where
  csn : Bool
  sck : Bool
  doe : BitVec 4
  spiDo : BitVec 4

namespace FlashCtrl

variable {w : ℕ}

/-- Reset. -/
def reset (w : ℕ) : FlashCtrl w := ⟨.idle, 0, true, 0, fun _ => 0, 0, fun _ => false, false⟩

/-- `next_state`. -/
def nextState (T : TrstCycles) (r : FlashCtrl w) (start : Bool) : FState :=
  match r.state with
  | .idle => if start then (if r.isFirst then .cmd66 else .addr) else .idle
  | .cmd66 => if r.phaseTick = 15 then .wait66 else .cmd66
  | .wait66 => if r.phaseTick = 3 then .cmd99 else .wait66
  | .cmd99 => if r.phaseTick = 15 then .trstWait else .cmd99
  | .trstWait => if r.phaseTick.toNat + 1 = T.val then .cmdEb else .trstWait
  | .cmdEb => if r.phaseTick = 15 then .addr else .cmdEb
  | .addr => if r.phaseTick = 11 then .mode else .addr
  | .mode => if r.phaseTick = 3 then .dummy else .mode
  | .dummy => if r.phaseTick = 7 then .data else .dummy
  | .data => if r.phaseTick = 127 then .doneWait else .data
  | .doneWait => if r.phaseTick = 3 then .idle else .doneWait

/-- The data captured at an edge in the middle of an SCK pulse: the high nibble of a byte is kept,
the low one completes it at its place in the line. -/
def capture (r : FlashCtrl w) (di : BitVec 4) : FlashCtrl w :=
  if r.phaseTick.getLsbD 1 then
    { r with
      dataReg := Function.update r.dataReg r.byteIdx (r.dbyte.extractLsb' 4 4 ++ di)
      byteIdx := r.byteIdx + 1
      wordDone :=
        if r.byteIdx.extractLsb' 0 2 = 3#2 then
          Function.update r.wordDone (r.byteIdx.extractLsb' 2 w) true
        else r.wordDone }
  else { r with dbyte := di ++ r.dbyte.extractLsb' 0 4 }

/-- The capture registers after an edge. -/
def stepData (r : FlashCtrl w) (start : Bool) (di : BitVec 4) : FlashCtrl w :=
  if start then { r with byteIdx := 0, wordDone := fun _ => false }
  else if r.state = .data ∧ r.phaseTick.getLsbD 0 = true then r.capture di
  else r

/-- One clock edge. -/
def step (T : TrstCycles) (r : FlashCtrl w) (start : Bool) (di : BitVec 4) : FlashCtrl w where
  state := r.nextState T start
  phaseTick :=
    if r.state ≠ r.nextState T start then 0
    else if r.state ≠ .idle then r.phaseTick + 1 else r.phaseTick
  isFirst := if r.state = .data ∧ r.phaseTick = 127 then false else r.isFirst
  dbyte := (r.stepData start di).dbyte
  dataReg := (r.stepData start di).dataReg
  byteIdx := (r.stepData start di).byteIdx
  wordDone := (r.stepData start di).wordDone
  doneReg :=
    if start then false
    else if r.state = .doneWait ∧ r.phaseTick = 3 then true else r.doneReg

/-! ## Pins -/

/-- Bit of a command on line 0, most significant first. -/
def cmdBit (r : FlashCtrl w) (cmd : BitVec 8) : BitVec 4 :=
  (BitVec.ofBool (cmd.getLsbD (7 - (r.phaseTick.extractLsb' 1 3).toNat))).setWidth 4

/-- `do_reg`, for the address input `a`. -/
def spiDo (r : FlashCtrl w) (a : BitVec 24) : BitVec 4 :=
  match r.state with
  | .cmd66 => r.cmdBit 0x66
  | .cmd99 => r.cmdBit 0x99
  | .cmdEb => r.cmdBit 0xEB
  | .addr =>
    match r.phaseTick.extractLsb' 1 3 with
    | 0#3 => a.extractLsb' 20 4
    | 1#3 => a.extractLsb' 16 4
    | 2#3 => a.extractLsb' 12 4
    | 3#3 => a.extractLsb' 8 4
    | 4#3 => a.extractLsb' 4 4
    | 5#3 => a.extractLsb' 0 4
    | _ => 0
  | .mode =>
    match r.phaseTick.extractLsb' 1 3 with
    | 0#3 => 0xA
    | _ => 0
  | _ => 0

/-- `doe`. -/
def doe (r : FlashCtrl w) : BitVec 4 :=
  match r.state with
  | .cmd66 | .cmd99 | .cmdEb => 0b1101
  | .addr | .mode => 0b1111
  | _ => 0b0000

/-- `state_active`. -/
def active (r : FlashCtrl w) : Bool :=
  match r.state with
  | .cmd66 | .cmd99 | .cmdEb | .addr | .mode | .dummy | .data => true
  | _ => false

/-- The pins in one cycle. -/
def pins (r : FlashCtrl w) (a : BitVec 24) : SpiPins where
  csn := !r.active
  sck := r.active && r.phaseTick.getLsbD 0
  doe := r.doe
  spiDo := r.spiDo a

end FlashCtrl

/-! ## The flash -/

/-- The flash as it follows the pins: the last level of SCK, the address collected so far, and in
the present transaction the number of nibbles driven on four lines and of clocks after them. -/
structure SpiFlash where
  prevSck : Bool
  addr : BitVec 24
  nNib : ℕ
  nClk : ℕ

namespace SpiFlash

/-- Between transactions. -/
def deselected : SpiFlash := ⟨false, 0, 0, 0⟩

/-- A rising edge of SCK in this cycle. -/
def rising (f : SpiFlash) (p : SpiPins) : Bool := p.sck && !f.prevSck

/-- The flash after a cycle with pins `p`. -/
def step (f : SpiFlash) (p : SpiPins) : SpiFlash :=
  if p.csn then deselected
  else if f.rising p then
    if p.doe = 0b1111 then
      { prevSck := p.sck, nNib := f.nNib + 1, nClk := f.nClk
        addr := if f.nNib < 6 then f.addr.extractLsb' 0 20 ++ p.spiDo else f.addr }
    else if p.doe = 0b0000 then { f with prevSck := p.sck, nClk := f.nClk + 1 }
    else { f with prevSck := p.sck }
  else { f with prevSck := p.sck }

/-- Nibble `k` of the contents from address `a` on, high nibble first. -/
def nibble (m : FlashMem) (a : BitVec 24) (k : ℕ) : BitVec 4 :=
  if k % 2 = 0 then (m (a + BitVec.ofNat 24 (k / 2))).extractLsb' 4 4
  else (m (a + BitVec.ofNat 24 (k / 2))).extractLsb' 0 4

/-- What the controller reads on `di`: the next nibble of the contents on a clock after address,
mode and four dummy clocks, and anything (`junk`) otherwise. -/
def di (m : FlashMem) (f : SpiFlash) (p : SpiPins) (junk : BitVec 4) : BitVec 4 :=
  if p.csn = false ∧ f.rising p = true ∧ p.doe = 0b0000 ∧ f.nNib = 8 ∧ 4 ≤ f.nClk then
    nibble m f.addr (f.nClk - 4)
  else junk

end SpiFlash

end KwsSoc.Xip
