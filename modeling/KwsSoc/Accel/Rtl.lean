import KwsSoc.Lib.ByteWord

/-! # The Conv1D accelerator, register by register

A cycle-accurate model of `peris/conv1d_accel/conv1d_accel.v`: the configuration registers behind
the APB port (`Config`), the registers of the main FSM (`Fsm`) and their update at one clock edge
(`Fsm.step`, one function per FSM state). Non-blocking assignments read the registers before the
edge, so every state function is a record update of its argument. Expression widths follow the
Verilog context rules: an operand is extended before the arithmetic is done, and a comparison is
made at the wider of its two operands. -/

namespace KwsSoc.Conv1dAccel

open ByteWord

/-! ## Constants and configuration registers -/

/-- AHB `htrans` encodings. -/
def HTRANS_IDLE : BitVec 2 := 0b00#2
def HTRANS_NONSEQ : BitVec 2 := 0b10#2
def HTRANS_SEQ : BitVec 2 := 0b11#2

/-- AHB `hburst` encodings. -/
def HBURST_SINGLE : BitVec 3 := 0b000#3
def HBURST_INCR : BitVec 3 := 0b001#3

/-- AHB `hsize` encodings. -/
def HSIZE_BYTE : BitVec 3 := 0b000#3
def HSIZE_WORD : BitVec 3 := 0b010#3

/-- The configuration registers. -/
structure Config where
  rSrcAddr : BitVec 32
  rWtAddr : BitVec 32
  rDstAddr : BitVec 32
  rBsAddr : BitVec 32
  rShiftAddr : BitVec 32
  rCIn : BitVec 8
  rCOut : BitVec 8
  rKW : BitVec 8
  rStride : BitVec 8
  rWIn : BitVec 16
  rShift : BitVec 5
  rPrefetchEn : Bool
  rPrefetchBase : BitVec 32
  rPrefetchLen : BitVec 32

/-- Reset values of the configuration registers. -/
def Config.reset : Config where
  rSrcAddr := 0
  rWtAddr := 0
  rDstAddr := 0
  rBsAddr := 0
  rShiftAddr := 0
  rCIn := 1
  rCOut := 1
  rKW := 1
  rStride := 1
  rWIn := 1
  rShift := 0
  rPrefetchEn := false
  rPrefetchBase := 0
  rPrefetchLen := 0

/-- The APB request of one cycle. -/
structure ApbReq where
  paddr : BitVec 16
  psel : Bool
  penable : Bool
  pwrite : Bool
  pwdata : BitVec 32

namespace ApbReq

/-- Register index `paddr[5:2]`. -/
def index (q : ApbReq) : BitVec 4 := q.paddr.extractLsb' 2 4

/-- A write access in its enable cycle. -/
def isWrite (q : ApbReq) : Bool := q.psel && q.penable && q.pwrite

/-- `start_pulse`: a write of 1 to bit 0 of CTRL. -/
def startPulse (q : ApbReq) : Bool := q.isWrite && (q.index == 0#4) && q.pwdata.getLsbD 0

/-- No request. -/
def none : ApbReq := ⟨0, false, false, false, 0⟩

/-- The write that starts the accelerator: 1 to CTRL. -/
def start : ApbReq := ⟨0, true, true, true, 1⟩

end ApbReq

/-- The configuration registers after an edge: an APB write updates the addressed register. -/
def Config.step (c : Config) (q : ApbReq) : Config :=
  if q.isWrite then
    match q.index with
    | 1#4 => { c with rSrcAddr := q.pwdata }
    | 2#4 => { c with rWtAddr := q.pwdata }
    | 3#4 => { c with rDstAddr := q.pwdata }
    | 4#4 => { c with rBsAddr := q.pwdata }
    | 5#4 => { c with
        rStride := q.pwdata.extractLsb' 24 8
        rKW := q.pwdata.extractLsb' 16 8
        rCOut := q.pwdata.extractLsb' 8 8
        rCIn := q.pwdata.extractLsb' 0 8 }
    | 6#4 => { c with rWIn := q.pwdata.extractLsb' 0 16 }
    | 7#4 => { c with rShift := q.pwdata.extractLsb' 0 5 }
    | 8#4 => { c with rShiftAddr := q.pwdata }
    | 9#4 => { c with rPrefetchEn := q.pwdata.getLsbD 0 }
    | 10#4 => { c with rPrefetchBase := q.pwdata }
    | 11#4 => { c with rPrefetchLen := q.pwdata }
    | _ => c
  else c

/-! ## Buffers and datapath -/

/-- A 64-word buffer (`in_buf0`, `in_buf1`, `wt_buf`). -/
abbrev WordBuf := BitVec 6 → BitVec 32

/-- Write word `i`; an index outside the array writes nothing. -/
def WordBuf.write (b : WordBuf) (i : ℕ) (v : BitVec 32) : WordBuf :=
  fun k => if k.toNat = i then v else b k

/-- Write one byte lane of word `i`; an index outside the array writes nothing. -/
def WordBuf.writeLane (b : WordBuf) (i : ℕ) (l : BitVec 2) (v : BitVec 8) : WordBuf :=
  fun k => if k.toNat = i then setLane (b k) l v else b k

/-- The product `p = i * w` of two signed bytes, sign-extended to 32 bits. -/
def macProduct (i w : BitVec 8) : BitVec 32 :=
  (i.signExtend 16 * w.signExtend 16).signExtend 32

/-- `mac4`: four signed byte products of an input word and a weight word. -/
def mac4 (inWord wtWord : BitVec 32) : BitVec 32 :=
  macProduct (byteLane inWord 0) (byteLane wtWord 0)
    + macProduct (byteLane inWord 1) (byteLane wtWord 1)
    + macProduct (byteLane inWord 2) (byteLane wtWord 2)
    + macProduct (byteLane inWord 3) (byteLane wtWord 3)

/-- `shifted = (acc + bias_val) >>> cur_shift`, arithmetically. -/
def shifted (acc biasVal : BitVec 32) (curShift : BitVec 5) : BitVec 32 :=
  (acc + biasVal).sshiftRight curShift.toNat

/-- `clipped`: the shifted accumulator saturated to a signed byte. -/
def clipped (acc biasVal : BitVec 32) (curShift : BitVec 5) : BitVec 8 :=
  let s := shifted acc biasVal curShift
  if (127#32).slt s then 127#8
  else if s.slt (-128#32) then -128#8
  else s.extractLsb' 0 8

/-! ## Quantities derived from the configuration -/

namespace Config

/-- `r_k_w * r_c_in` in 16 bits. -/
def patchBytes (c : Config) : BitVec 16 := c.rKW.setWidth 16 * c.rCIn.setWidth 16

/-- `((r_k_w * r_c_in) + 3) >> 2`, cut to the 6 bits of `patch_words`. -/
def patchWords (c : Config) : BitVec 6 :=
  ((c.rKW.setWidth 32 * c.rCIn.setWidth 32 + 3#32) >>> 2).setWidth 6

/-- `(r_w_in - r_k_w) / r_stride + 1` in 16 bits. A zero stride divides to 0, as the two-state
simulators do; with four-state logic the comparisons that read the X come out the same way. -/
def wOutCnt (c : Config) : BitVec 16 :=
  (c.rWIn - c.rKW.setWidth 16) / c.rStride.setWidth 16 + 1#16

/-- `(r_k_w * r_c_in) & 3`. -/
def tailBytes (c : Config) : BitVec 2 := ((c.rKW * c.rCIn) &&& 3#8).setWidth 2

/-- Address of the bias word of channel `cPos`. -/
def biasAddr (c : Config) (cPos : BitVec 8) : BitVec 32 := c.rBsAddr + cPos.setWidth 32 * 4#32

/-- Address of the shift byte of channel `cPos`. -/
def shiftAddr (c : Config) (cPos : BitVec 8) : BitVec 32 := c.rShiftAddr + cPos.setWidth 32

/-- `stride * C_in` in 32 bits: the distance between two input patches. -/
def patchStep (c : Config) : BitVec 32 := c.rStride.setWidth 32 * c.rCIn.setWidth 32

/-- Address of the output byte of position `wPos` and channel `cPos`. -/
def outAddr (c : Config) (wPos : BitVec 16) (cPos : BitVec 8) : BitVec 32 :=
  c.rDstAddr + wPos.setWidth 32 * c.rCOut.setWidth 32 + cPos.setWidth 32

end Config

/-! ## The main FSM -/

/-- States of the main FSM (`S_IDLE` … `S_MAC_OVLP`). -/
inductive State
  | idle | init | inAddr | inData | wtAddr | wtData | mac | biasAddr | biasData | wtDataW
  | shiftData | writeAddr | writeData | advance | done | macOvlp
  deriving DecidableEq, Repr

/-- The registers written by the main FSM, the AHB master outputs among them. -/
structure Fsm where
  state : State
  rBusy : Bool
  rDone : Bool
  htrans : BitVec 2
  hwrite : Bool
  hburst : BitVec 3
  hsize : BitVec 3
  haddr : BitVec 32
  hwdata : BitVec 32
  wPos : BitVec 16
  cPos : BitVec 8
  bufIdx : BitVec 7
  macIdx : BitVec 6
  wtWordIdx : BitVec 6
  rWtLane0 : BitVec 2
  rWait : Bool
  acc : BitVec 32
  biasVal : BitVec 32
  resultByte : BitVec 8
  curShift : BitVec 5
  rShiftLane : BitVec 2
  patchBytes : BitVec 16
  patchWords : BitVec 6
  wOutCnt : BitVec 16
  tailBytes : BitVec 2
  bufSel : Bool
  macDone : Bool
  loadDone : Bool
  inBuf0 : WordBuf
  inBuf1 : WordBuf
  wtBuf : WordBuf

namespace Fsm

/-- Reset: the buffers and `result_byte` have no reset value and keep what they hold. -/
def reset (r : Fsm) : Fsm :=
  { r with
    state := .idle, rBusy := false, rDone := false
    htrans := HTRANS_IDLE, hwrite := false, hburst := HBURST_SINGLE, hsize := HSIZE_WORD
    haddr := 0, hwdata := 0, wPos := 0, cPos := 0, bufIdx := 0, macIdx := 0, wtWordIdx := 0
    rWtLane0 := 0, rWait := false, acc := 0, biasVal := 0, curShift := 0, rShiftLane := 0
    patchBytes := 0, patchWords := 0, wOutCnt := 0, tailBytes := 0
    bufSel := false, macDone := false, loadDone := false }

/-- `w_wt_addr`: first weight byte of the current output channel. -/
def wWtAddr (c : Config) (r : Fsm) : BitVec 32 :=
  c.rWtAddr + r.cPos.setWidth 32 * r.patchBytes.setWidth 32

/-- `mac_in_word`: the word of the active input buffer under `mac_idx`. -/
def macInWord (r : Fsm) : BitVec 32 := if r.bufSel then r.inBuf1 r.macIdx else r.inBuf0 r.macIdx

/-- `S_IDLE`. -/
def sIdle (r : Fsm) (startPulse : Bool) : Fsm :=
  if startPulse then { r with htrans := HTRANS_IDLE, rDone := false, rBusy := true, state := .init }
  else { r with htrans := HTRANS_IDLE }

/-- `S_INIT`. -/
def sInit (c : Config) (r : Fsm) : Fsm :=
  { r with
    patchBytes := c.patchBytes, patchWords := c.patchWords, wOutCnt := c.wOutCnt
    tailBytes := c.tailBytes, wPos := 0, cPos := 0, bufSel := false, state := .wtAddr }

/-- `S_WT_ADDR`: word reads when address and length are whole words, else byte reads. -/
def sWtAddr (c : Config) (r : Fsm) : Fsm :=
  let w := wWtAddr c r
  let r' := { r with
    rWtLane0 := w.extractLsb' 0 2, haddr := w, htrans := HTRANS_NONSEQ, hburst := HBURST_INCR
    hwrite := false, rWait := true }
  if w.extractLsb' 0 2 = 0#2 ∧ r.patchBytes.extractLsb' 0 2 = 0#2 then
    { r' with hsize := HSIZE_WORD, wtWordIdx := 0, state := .wtDataW }
  else
    -- the last word is zeroed first, so that its tail bytes cancel in the MAC
    { r' with
      bufIdx := 0, hsize := HSIZE_BYTE, state := .wtData
      wtBuf := r.wtBuf.write (r.patchWords.setWidth 32 - 1#32).toNat 0 }

/-- `S_WT_DATA_W`: one weight word per data cycle. -/
def sWtDataW (r : Fsm) (hready : Bool) (hrdata : BitVec 32) : Fsm :=
  if hready then
    if r.rWait then { r with haddr := r.haddr + 4#32, htrans := HTRANS_SEQ, rWait := false }
    else
      let r' := { r with wtBuf := r.wtBuf.write r.wtWordIdx.toNat hrdata }
      if r.wtWordIdx = r.patchWords - 1#6 then
        { r' with htrans := HTRANS_IDLE, state := .biasAddr }
      else
        { r' with wtWordIdx := r.wtWordIdx + 1#6, haddr := r.haddr + 4#32, htrans := HTRANS_SEQ }
  else r

/-- `S_WT_DATA`: one weight byte per data cycle, taken from its lane of the read word. -/
def sWtData (r : Fsm) (hready : Bool) (hrdata : BitVec 32) : Fsm :=
  if hready then
    if r.rWait then { r with haddr := r.haddr + 1#32, htrans := HTRANS_SEQ, rWait := false }
    else
      let curLane := r.rWtLane0 + r.bufIdx.extractLsb' 0 2
      let rdbyte := byteLane hrdata curLane
      let r' := { r with
        wtBuf := r.wtBuf.writeLane (r.bufIdx.extractLsb' 2 5).toNat (r.bufIdx.extractLsb' 0 2)
          rdbyte }
      if r.bufIdx.setWidth 16 = r.patchBytes - 1#16 then
        { r' with htrans := HTRANS_IDLE, state := .biasAddr }
      else
        { r' with bufIdx := r.bufIdx + 1#7, haddr := r.haddr + 1#32, htrans := HTRANS_SEQ }
  else r

/-- `S_BIAS_ADDR`. -/
def sBiasAddr (c : Config) (r : Fsm) : Fsm :=
  { r with
    haddr := c.biasAddr r.cPos, htrans := HTRANS_NONSEQ, hburst := HBURST_SINGLE
    hsize := HSIZE_WORD, hwrite := false, rWait := true, state := .biasData }

/-- `S_BIAS_DATA`: take the bias and issue the shift read. -/
def sBiasData (c : Config) (r : Fsm) (hready : Bool) (hrdata : BitVec 32) : Fsm :=
  if hready then
    if r.rWait then { r with rWait := false }
    else { r with
      biasVal := hrdata, haddr := c.shiftAddr r.cPos, htrans := HTRANS_NONSEQ
      hburst := HBURST_SINGLE, hsize := HSIZE_BYTE, hwrite := false
      rShiftLane := c.rShiftAddr.extractLsb' 0 2 + r.cPos.extractLsb' 0 2
      rWait := true, state := .shiftData }
  else r

/-- `S_SHIFT_DATA`. -/
def sShiftData (r : Fsm) (hready : Bool) (hrdata : BitVec 32) : Fsm :=
  if hready then
    if r.rWait then { r with rWait := false }
    else { r with
      curShift := (byteLane hrdata r.rShiftLane).setWidth 5
      htrans := HTRANS_IDLE, acc := 0, state := .inAddr }
  else r

/-- `S_IN_ADDR`: first input patch of a channel. -/
def sInAddr (c : Config) (r : Fsm) : Fsm :=
  { r with
    bufIdx := 0
    haddr := c.rSrcAddr + r.wPos.setWidth 32 * c.rStride.setWidth 32 * c.rCIn.setWidth 32
    htrans := HTRANS_NONSEQ, hburst := HBURST_INCR, hsize := HSIZE_WORD, hwrite := false
    rWait := true, state := .inData }

/-- `S_IN_DATA`: fill the active buffer, then start the first MAC. -/
def sInData (c : Config) (r : Fsm) (hready : Bool) (hrdata : BitVec 32) : Fsm :=
  if hready then
    if r.rWait then { r with haddr := r.haddr + 4#32, htrans := HTRANS_SEQ, rWait := false }
    else
      let r' := if r.bufSel then { r with inBuf1 := r.inBuf1.write r.bufIdx.toNat hrdata }
        else { r with inBuf0 := r.inBuf0.write r.bufIdx.toNat hrdata }
      if r.bufIdx = r.patchWords.setWidth 7 - 1#7 then
        if 1#16 < r.wOutCnt then
          -- load position 1 into the inactive buffer while the MAC runs
          { r' with
            macIdx := 0, haddr := c.rSrcAddr + c.patchStep, htrans := HTRANS_NONSEQ
            hburst := HBURST_INCR, hsize := HSIZE_WORD, hwrite := false, bufIdx := 0
            rWait := true, macDone := false, loadDone := false, state := .macOvlp }
        else { r' with macIdx := 0, htrans := HTRANS_IDLE, state := .mac }
      else { r' with bufIdx := r.bufIdx + 1#7, haddr := r.haddr + 4#32, htrans := HTRANS_SEQ }
  else r

/-- `S_MAC`: MAC without a concurrent load; `hready` is not looked at. -/
def sMac (r : Fsm) : Fsm :=
  let r' := { r with htrans := HTRANS_IDLE, acc := r.acc + mac4 r.macInWord (r.wtBuf r.macIdx) }
  if r.macIdx = r.patchWords - 1#6 then { r' with state := .writeAddr }
  else { r' with macIdx := r.macIdx + 1#6 }

/-- The MAC half of `S_MAC_OVLP`. -/
def sMacOvlpMac (r : Fsm) : Fsm :=
  if r.macDone then r
  else
    let r' := { r with acc := r.acc + mac4 r.macInWord (r.wtBuf r.macIdx) }
    if r.macIdx = r.patchWords - 1#6 then { r' with macDone := true }
    else { r' with macIdx := r.macIdx + 1#6 }

/-- The load half of `S_MAC_OVLP`: fill the inactive buffer. -/
def sMacOvlpLoad (r : Fsm) (hready : Bool) (hrdata : BitVec 32) : Fsm :=
  if !r.loadDone && hready then
    if r.rWait then { r with haddr := r.haddr + 4#32, htrans := HTRANS_SEQ, rWait := false }
    else
      let r' := if r.bufSel then { r with inBuf0 := r.inBuf0.write r.bufIdx.toNat hrdata }
        else { r with inBuf1 := r.inBuf1.write r.bufIdx.toNat hrdata }
      if r.bufIdx = r.patchWords.setWidth 7 - 1#7 then
        { r' with loadDone := true, htrans := HTRANS_IDLE }
      else { r' with bufIdx := r.bufIdx + 1#7, haddr := r.haddr + 4#32, htrans := HTRANS_SEQ }
  else r

/-- `S_MAC_OVLP`: both halves work on disjoint registers, so they compose in either order; the
exit tests the flags as they were before the edge. -/
def sMacOvlp (r : Fsm) (hready : Bool) (hrdata : BitVec 32) : Fsm :=
  let r' := (r.sMacOvlpMac).sMacOvlpLoad hready hrdata
  if r.macDone && r.loadDone then { r' with state := .writeAddr } else r'

/-- `S_WRITE_ADDR`: issue the one-byte output write; `hready` is not looked at. -/
def sWriteAddr (c : Config) (r : Fsm) : Fsm :=
  let b := clipped r.acc r.biasVal r.curShift
  { r with
    resultByte := b, hwdata := ofLanes b b b b, haddr := c.outAddr r.wPos r.cPos
    htrans := HTRANS_NONSEQ, hburst := HBURST_SINGLE, hsize := HSIZE_BYTE, hwrite := true
    state := .writeData }

/-- `S_WRITE_DATA`: left when the write's address phase is accepted. -/
def sWriteData (r : Fsm) (hready : Bool) : Fsm :=
  if hready then { r with hwrite := false, htrans := HTRANS_IDLE, state := .advance } else r

/-- `S_ADVANCE`: next position, next channel or done. -/
def sAdvance (c : Config) (r : Fsm) : Fsm :=
  if r.wPos < r.wOutCnt - 1#16 then
    let r' := { r with wPos := r.wPos + 1#16, acc := 0, bufSel := !r.bufSel, macIdx := 0 }
    if r.wPos + 1#16 < r.wOutCnt - 1#16 then
      { r' with
        haddr := c.rSrcAddr
          + (r.wPos.setWidth 32 + 2#32) * c.rStride.setWidth 32 * c.rCIn.setWidth 32
        htrans := HTRANS_NONSEQ, hburst := HBURST_INCR, hsize := HSIZE_WORD, hwrite := false
        bufIdx := 0, rWait := true, macDone := false, loadDone := false, state := .macOvlp }
    else { r' with state := .mac }
  else
    let r' := { r with wPos := 0 }
    if r.cPos < c.rCOut - 1#8 then
      { r' with cPos := r.cPos + 1#8, acc := 0, bufSel := false, state := .wtAddr }
    else { r' with state := .done }

/-- `S_DONE`. -/
def sDone (r : Fsm) : Fsm :=
  { r with htrans := HTRANS_IDLE, rBusy := false, rDone := true, state := .idle }

/-- One clock edge of the main FSM. -/
def step (c : Config) (startPulse hready : Bool) (hrdata : BitVec 32) (r : Fsm) : Fsm :=
  match r.state with
  | .idle => r.sIdle startPulse
  | .init => r.sInit c
  | .inAddr => r.sInAddr c
  | .inData => r.sInData c hready hrdata
  | .wtAddr => r.sWtAddr c
  | .wtData => r.sWtData hready hrdata
  | .mac => r.sMac
  | .biasAddr => r.sBiasAddr c
  | .biasData => r.sBiasData c hready hrdata
  | .wtDataW => r.sWtDataW hready hrdata
  | .shiftData => r.sShiftData hready hrdata
  | .writeAddr => r.sWriteAddr c
  | .writeData => r.sWriteData hready
  | .advance => r.sAdvance c
  | .done => r.sDone
  | .macOvlp => r.sMacOvlp hready hrdata

section Step

variable {c : Config} {r : Fsm} {st hr : Bool} {d : BitVec 32}

theorem step_of_idle (hs : r.state = .idle) : r.step c st hr d = r.sIdle st := by
  rw [step, hs]

theorem step_of_init (hs : r.state = .init) : r.step c st hr d = r.sInit c := by
  rw [step, hs]

theorem step_of_wtAddr (hs : r.state = .wtAddr) : r.step c st hr d = r.sWtAddr c := by
  rw [step, hs]

theorem step_of_wtDataW (hs : r.state = .wtDataW) : r.step c st hr d = r.sWtDataW hr d := by
  rw [step, hs]

theorem step_of_wtData (hs : r.state = .wtData) : r.step c st hr d = r.sWtData hr d := by
  rw [step, hs]

theorem step_of_biasAddr (hs : r.state = .biasAddr) : r.step c st hr d = r.sBiasAddr c := by
  rw [step, hs]

theorem step_of_biasData (hs : r.state = .biasData) : r.step c st hr d = r.sBiasData c hr d := by
  rw [step, hs]

theorem step_of_shiftData (hs : r.state = .shiftData) : r.step c st hr d = r.sShiftData hr d := by
  rw [step, hs]

theorem step_of_inAddr (hs : r.state = .inAddr) : r.step c st hr d = r.sInAddr c := by
  rw [step, hs]

theorem step_of_inData (hs : r.state = .inData) : r.step c st hr d = r.sInData c hr d := by
  rw [step, hs]

theorem step_of_mac (hs : r.state = .mac) : r.step c st hr d = r.sMac := by
  rw [step, hs]

theorem step_of_macOvlp (hs : r.state = .macOvlp) : r.step c st hr d = r.sMacOvlp hr d := by
  rw [step, hs]

theorem step_of_writeAddr (hs : r.state = .writeAddr) : r.step c st hr d = r.sWriteAddr c := by
  rw [step, hs]

theorem step_of_writeData (hs : r.state = .writeData) : r.step c st hr d = r.sWriteData hr := by
  rw [step, hs]

theorem step_of_advance (hs : r.state = .advance) : r.step c st hr d = r.sAdvance c := by
  rw [step, hs]

theorem step_of_done (hs : r.state = .done) : r.step c st hr d = r.sDone := by
  rw [step, hs]

end Step

end Fsm

/-! ## The module -/

/-- The accelerator: configuration registers and main FSM. -/
structure Accel where
  cfg : Config
  fsm : Fsm

namespace Accel

/-- Power-on reset; the buffers hold whatever they held. -/
def reset (r : Fsm) : Accel := ⟨Config.reset, r.reset⟩

/-- The CTRL register as the APB port reads it: `{22'b0, r_done, r_busy, 8'b0}`. -/
def ctrl (a : Accel) : BitVec 32 :=
  (0#22 ++ BitVec.ofBool a.fsm.rDone ++ BitVec.ofBool a.fsm.rBusy ++ 0#8)

/-- One clock edge of the whole module. -/
def step (q : ApbReq) (hready : Bool) (hrdata : BitVec 32) (a : Accel) : Accel :=
  ⟨a.cfg.step q, a.fsm.step a.cfg q.startPulse hready hrdata⟩

end Accel

end KwsSoc.Conv1dAccel
