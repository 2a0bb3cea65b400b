import KwsSoc.Accel.Done
import KwsSoc.Lib.SyncMachine

/-! # The accelerator driver and its handshake

`accel_conv1d` (`test/common/accel_conv1d.h`) programs the configuration registers, writes START,
polls CTRL for DONE and returns. Here the driver is the list of its volatile accesses
(`accelConv1d`), call after call, and runs beside the accelerator with any number of cycles
between two accesses and any timing of the accelerator's own transfers:

* **`Sys.Inv`** — what one cycle preserves: the FSM is in `S_IDLE` unless the driver polls, and
  while it polls either the run is on and DONE clear, or the run is over and DONE set.
* **`handshake`** — no START is dropped, a poll loop exits only on the DONE of its own run, and
  the configuration does not change while a run lasts.
* **`run_arguments`** — a run works on the arguments of the call that started it. -/

namespace KwsSoc.Conv1dAccel

open SyncMachine

/-! ## Register reads -/

/-- `prdata`: the register that the address selects. -/
def Accel.prdata (a : Accel) (q : ApbReq) : BitVec 32 :=
  match q.index with
  | 0#4 => a.ctrl
  | 1#4 => a.cfg.rSrcAddr
  | 2#4 => a.cfg.rWtAddr
  | 3#4 => a.cfg.rDstAddr
  | 4#4 => a.cfg.rBsAddr
  | 5#4 => a.cfg.rStride ++ a.cfg.rKW ++ a.cfg.rCOut ++ a.cfg.rCIn
  | 6#4 => 0#16 ++ a.cfg.rWIn
  | 7#4 => 0#27 ++ a.cfg.rShift
  | 8#4 => a.cfg.rShiftAddr
  | 9#4 => 0#31 ++ BitVec.ofBool a.cfg.rPrefetchEn
  | 10#4 => a.cfg.rPrefetchBase
  | 11#4 => a.cfg.rPrefetchLen
  | _ => 0

/-! ## The driver -/

/-- `ACCEL_BASE` and the register offsets. -/
def ACCEL_BASE : BitVec 32 := 0x4000C000#32
def ACCEL_CTRL : BitVec 32 := 0x00#32
def ACCEL_SRC_ADDR : BitVec 32 := 0x04#32
def ACCEL_WT_ADDR : BitVec 32 := 0x08#32
def ACCEL_DST_ADDR : BitVec 32 := 0x0C#32
def ACCEL_BS_ADDR : BitVec 32 := 0x10#32
def ACCEL_CFG0 : BitVec 32 := 0x14#32
def ACCEL_CFG1 : BitVec 32 := 0x18#32
def ACCEL_SHIFT_ADDR : BitVec 32 := 0x20#32
def ACCEL_PREFETCH_CTRL : BitVec 32 := 0x24#32
def ACCEL_PREFETCH_BASE : BitVec 32 := 0x28#32
def ACCEL_PREFETCH_LEN : BitVec 32 := 0x2C#32

def ACCEL_PREFETCH_EN : BitVec 32 := 1#32
def ACCEL_CTRL_START : BitVec 32 := 1#32
def ACCEL_CTRL_DONE : BitVec 32 := 1#32 <<< 9

/-- The arguments of `accel_conv1d`; pointers are addresses. -/
structure Conv1dArgs where
  src : BitVec 32
  wt : BitVec 32
  dst : BitVec 32
  bias32 : BitVec 32
  shiftArr : BitVec 32
  cIn : BitVec 8
  cOut : BitVec 8
  kW : BitVec 8
  stride : BitVec 8
  wIn : BitVec 16

/-- A volatile access of the driver: `ACCEL_REG(off) = val`, or the loop
`while (!(ACCEL_CTRL & ACCEL_CTRL_DONE));`. -/
inductive Access
  | store (off val : BitVec 32)
  | pollDone
  deriving DecidableEq

namespace Conv1dArgs

/-- The value of CFG0. -/
def cfg0 (a : Conv1dArgs) : BitVec 32 :=
  a.stride.setWidth 32 <<< 24 ||| a.kW.setWidth 32 <<< 16 ||| a.cOut.setWidth 32 <<< 8
    ||| a.cIn.setWidth 32

/-- The value of PREFETCH_LEN. -/
def prefetchLen (a : Conv1dArgs) : BitVec 32 :=
  a.cOut.setWidth 32 * a.kW.setWidth 32 * a.cIn.setWidth 32

end Conv1dArgs

/-- What a call does after its poll loop. -/
def afterPoll (kwsXipPrefetch : Bool) : List Access :=
  if kwsXipPrefetch then [.store ACCEL_PREFETCH_CTRL 0] else []

/-- `accel_conv1d`: the accesses of one call, in program order. -/
def accelConv1d (kwsXipPrefetch : Bool) (a : Conv1dArgs) : List Access :=
  [.store ACCEL_SRC_ADDR a.src, .store ACCEL_WT_ADDR a.wt, .store ACCEL_DST_ADDR a.dst,
    .store ACCEL_BS_ADDR a.bias32, .store ACCEL_SHIFT_ADDR a.shiftArr, .store ACCEL_CFG0 a.cfg0,
    .store ACCEL_CFG1 (a.wIn.setWidth 32)]
  ++ (if kwsXipPrefetch then
      [.store ACCEL_PREFETCH_BASE a.wt, .store ACCEL_PREFETCH_LEN a.prefetchLen,
        .store ACCEL_PREFETCH_CTRL ACCEL_PREFETCH_EN]
    else [])
  ++ .store ACCEL_CTRL ACCEL_CTRL_START :: .pollDone :: afterPoll kwsXipPrefetch

/-! ## Driver and accelerator side by side -/

/-- An APB cycle in which no access of the accelerator is in its enable phase: the bus is idle, is
in a setup phase or serves another peripheral. -/
structure IdleReq extends ApbReq where
  notEnabled : (psel && penable) = false

/-- `paddr` of an access. -/
def paddr (off : BitVec 32) : BitVec 16 := (ACCEL_BASE + off).setWidth 16

/-- The enable phase of an access; a read leaves `pwdata` as it was. `pready` is constantly high,
so the phase lasts one cycle. -/
def Access.req (bus : IdleReq) : Access → ApbReq
  | .store off val => ⟨paddr off, true, true, true, val⟩
  | .pollDone => ⟨paddr ACCEL_CTRL, true, true, false, bus.pwdata⟩

/-- The inputs of one cycle: whether the driver's next access is in its enable phase, the bus
otherwise, and the AHB response. -/
structure Cycle where
  access : Bool
  bus : IdleReq
  hready : Bool
  hrdata : BitVec 32

/-- The accelerator, the number of the current call, and the accesses this call has still to
make. -/
structure Sys where
  accel : Accel
  call : ℕ
  todo : List Access

namespace Sys

/-- The request at the accelerator's APB port. -/
def req (s : Sys) (x : Cycle) : ApbReq :=
  if x.access then
    match s.todo with
    | [] => x.bus.toApbReq
    | op :: _ => op.req x.bus
  else x.bus.toApbReq

/-- The poll loop reads DONE. -/
def readsDone (s : Sys) (x : Cycle) : Bool :=
  s.accel.prdata (Access.pollDone.req x.bus) &&& ACCEL_CTRL_DONE != 0

/-- The driver's own step when its access completes: a store is over, a poll is repeated until it
reads DONE, and the end of one call is the beginning of the next. -/
def next (kwsXipPrefetch : Bool) (calls : ℕ → Conv1dArgs) (s : Sys) (x : Cycle) :
    ℕ × List Access :=
  match s.todo with
  | [] => (s.call + 1, accelConv1d kwsXipPrefetch (calls (s.call + 1)))
  | .store _ _ :: rest => (s.call, rest)
  | .pollDone :: rest => if s.readsDone x then (s.call, rest) else (s.call, s.todo)

/-- One clock cycle. -/
def step (kwsXipPrefetch : Bool) (calls : ℕ → Conv1dArgs) (s : Sys) (x : Cycle) : Sys where
  accel := s.accel.step (s.req x) x.hready x.hrdata
  call := if x.access then (s.next kwsXipPrefetch calls x).1 else s.call
  todo := if x.access then (s.next kwsXipPrefetch calls x).2 else s.todo

/-- After reset, about to make the first call. -/
def init (kwsXipPrefetch : Bool) (calls : ℕ → Conv1dArgs) (r : Fsm) : Sys :=
  ⟨Accel.reset r, 0, accelConv1d kwsXipPrefetch (calls 0)⟩

/-- The run of a sequence of calls. A finite sequence is a run in which no access follows. -/
def run (kwsXipPrefetch : Bool) (calls : ℕ → Conv1dArgs) (r : Fsm) (i : ℕ → Cycle) : ℕ → Sys :=
  trace (step kwsXipPrefetch calls) (init kwsXipPrefetch calls r) i

/-- A write of START reaches the accelerator. -/
def Starts (s : Sys) (x : Cycle) : Prop := (s.req x).startPulse = true

/-- The driver is in its poll loop. -/
def Polling (s : Sys) : Prop := s.todo.head? = some .pollDone

/-- The poll loop of the current call exits. -/
def Exits (s : Sys) (x : Cycle) : Prop :=
  x.access = true ∧ s.Polling ∧ s.readsDone x = true

end Sys

/-! ## What single accesses do -/

theorem IdleReq.isWrite_eq (bus : IdleReq) : bus.isWrite = false := by
  simp [ApbReq.isWrite, bus.notEnabled]

/-- Without a write in its enable phase the configuration stays, and nothing starts. -/
theorem Config.step_of_not_write {q : ApbReq} (h : q.isWrite = false) (c : Config) :
    c.step q = c := by simp [Config.step, h]

theorem ApbReq.startPulse_of_not_write {q : ApbReq} (h : q.isWrite = false) :
    q.startPulse = false := by simp [ApbReq.startPulse, h]

/-- A register other than CTRL. -/
abbrev IsConfigReg (off : BitVec 32) : Prop := (paddr off).extractLsb' 2 4 ≠ 0#4

theorem IsConfigReg.startPulse {off : BitVec 32} (h : IsConfigReg off) (val : BitVec 32)
    (bus : IdleReq) : ((Access.store off val).req bus).startPulse = false := by
  have hne : ((paddr off).extractLsb' 2 4 == 0#4) = false := beq_eq_false_iff_ne.mpr h
  simp [Access.req, ApbReq.startPulse, ApbReq.index, hne]

theorem index_paddr_ctrl : (paddr ACCEL_CTRL).extractLsb' 2 4 = 0#4 := by decide

theorem startPulse_startStore (bus : IdleReq) :
    ((Access.store ACCEL_CTRL ACCEL_CTRL_START).req bus).startPulse = true := by
  simp [Access.req, ApbReq.startPulse, ApbReq.isWrite, ApbReq.index, index_paddr_ctrl,
    ACCEL_CTRL_START]

/-- The poll's CTRL read sees the DONE bit. -/
theorem Sys.readsDone_eq (s : Sys) (x : Cycle) : s.readsDone x = s.accel.fsm.rDone := by
  have hidx : (Access.pollDone.req x.bus).index = 0#4 := index_paddr_ctrl
  simp only [readsDone, Accel.prdata, hidx, Accel.ctrl]
  cases s.accel.fsm.rDone <;> cases s.accel.fsm.rBusy <;> decide

/-! ## What one edge of the FSM does -/

/-- An idle FSM without START stays idle and keeps DONE. -/
theorem Fsm.step_idle {r : Fsm} (h : r.state = .idle) (c : Config) (hr : Bool) (d : BitVec 32) :
    (r.step c false hr d).state = .idle ∧ (r.step c false hr d).rDone = r.rDone := by
  rw [Fsm.step_of_idle h]
  exact ⟨h, rfl⟩

/-- An idle FSM takes a START: it leaves `S_IDLE` and clears DONE. -/
theorem Fsm.step_start {r : Fsm} (h : r.state = .idle) (c : Config) (hr : Bool) (d : BitVec 32) :
    (r.step c true hr d).state = .init ∧ (r.step c true hr d).rDone = false := by
  rw [Fsm.step_of_idle h]
  exact ⟨rfl, rfl⟩

/-- `S_DONE` sets DONE and goes idle. -/
theorem Fsm.step_done {r : Fsm} (h : r.state = .done) (c : Config) (st hr : Bool) (d : BitVec 32) :
    (r.step c st hr d).state = .idle ∧ (r.step c st hr d).rDone = true := by
  rw [Fsm.step_of_done h]
  exact ⟨rfl, rfl⟩

/-- A busy FSM with DONE clear, before `S_DONE`, stays so. -/
theorem Fsm.step_busy {r : Fsm} (hi : r.state ≠ .idle) (hn : r.rDone = false)
    (hd : r.state ≠ .done) (c : Config) (st hr : Bool) (d : BitVec 32) :
    (r.step c st hr d).state ≠ .idle ∧ (r.step c st hr d).rDone = false := by
  have h := Fsm.step_keeps c st hr d r
  exact ⟨h.busy hi hd, (h.rDone hi hd).trans hn⟩

/-! ## The registers a run reads -/

/-- The configuration registers hold the arguments of a call. -/
structure Config.Programmed (a : Conv1dArgs) (c : Config) : Prop where
  src : c.rSrcAddr = a.src
  wt : c.rWtAddr = a.wt
  dst : c.rDstAddr = a.dst
  bias32 : c.rBsAddr = a.bias32
  shiftArr : c.rShiftAddr = a.shiftArr
  cIn : c.rCIn = a.cIn
  cOut : c.rCOut = a.cOut
  kW : c.rKW = a.kW
  stride : c.rStride = a.stride
  wIn : c.rWIn = a.wIn

/-- The configuration after a store. -/
def Config.store (c : Config) (off val : BitVec 32) : Config :=
  c.step ⟨paddr off, true, true, true, val⟩

/-- The register indices behind the offsets. -/
theorem index_paddr :
    (paddr ACCEL_SRC_ADDR).extractLsb' 2 4 = 1#4 ∧ (paddr ACCEL_WT_ADDR).extractLsb' 2 4 = 2#4 ∧
    (paddr ACCEL_DST_ADDR).extractLsb' 2 4 = 3#4 ∧ (paddr ACCEL_BS_ADDR).extractLsb' 2 4 = 4#4 ∧
    (paddr ACCEL_CFG0).extractLsb' 2 4 = 5#4 ∧ (paddr ACCEL_CFG1).extractLsb' 2 4 = 6#4 ∧
    (paddr ACCEL_SHIFT_ADDR).extractLsb' 2 4 = 8#4 ∧
    (paddr ACCEL_PREFETCH_CTRL).extractLsb' 2 4 = 9#4 ∧
    (paddr ACCEL_PREFETCH_BASE).extractLsb' 2 4 = 10#4 ∧
    (paddr ACCEL_PREFETCH_LEN).extractLsb' 2 4 = 11#4 := by decide

/-- A call before its START: what is left to do are configuration stores that make the
configuration hold the arguments, and then START and the poll loop. -/
inductive Setup (kwsXipPrefetch : Bool) (a : Conv1dArgs) : Config → List Access → Prop
  | start {c : Config} (h : c.Programmed a) :
      Setup kwsXipPrefetch a c
        (.store ACCEL_CTRL ACCEL_CTRL_START :: .pollDone :: afterPoll kwsXipPrefetch)
  | config {c : Config} {off val : BitVec 32} {rest : List Access} (h : IsConfigReg off)
      (hrest : Setup kwsXipPrefetch a (c.store off val) rest) :
      Setup kwsXipPrefetch a c (.store off val :: rest)

/-- The fields of CFG0 land in their registers. -/
theorem cfg0_fields (a : Conv1dArgs) :
    a.cfg0.extractLsb' 24 8 = a.stride ∧ a.cfg0.extractLsb' 16 8 = a.kW ∧
      a.cfg0.extractLsb' 8 8 = a.cOut ∧ a.cfg0.extractLsb' 0 8 = a.cIn := by
  have hpack : a.cfg0 = ByteWord.ofLanes a.cIn a.cOut a.kW a.stride :=
    (ByteWord.ofLanes_eq_or a.cIn a.cOut a.kW a.stride).symm
  rw [hpack]
  exact ⟨ByteWord.byteLane_ofLanes_three a.cIn a.cOut a.kW a.stride,
    ByteWord.byteLane_ofLanes_two a.cIn a.cOut a.kW a.stride,
    ByteWord.byteLane_ofLanes_one a.cIn a.cOut a.kW a.stride,
    ByteWord.byteLane_ofLanes_zero a.cIn a.cOut a.kW a.stride⟩

/-- **A call programs its arguments**, whatever the registers held before. -/
theorem setup_accelConv1d (kwsXipPrefetch : Bool) (a : Conv1dArgs) (c : Config) :
    Setup kwsXipPrefetch a c (accelConv1d kwsXipPrefetch a) := by
  obtain ⟨hstride, hkW, hcOut, hcIn⟩ := cfg0_fields a
  have hwIn : (a.wIn.setWidth 32).extractLsb' 0 16 = a.wIn := by
    ext k hk
    simp only [BitVec.getElem_extractLsb', BitVec.getLsbD_setWidth, zero_add]
    grind
  obtain ⟨h1, h2, h3, h4, h5, h6, h8, h9, h10, h11⟩ := index_paddr
  cases kwsXipPrefetch with
  | false =>
    iterate 7 refine .config (by decide) ?_
    refine .start ?_
    constructor <;> simp [Config.store, Config.step, ApbReq.isWrite, ApbReq.index, *]
  | true =>
    -- the three hint stores touch none of the registers a run reads
    iterate 10 refine .config (by decide) ?_
    refine .start ?_
    constructor <;> simp [Config.store, Config.step, ApbReq.isWrite, ApbReq.index, *]

theorem Setup.not_polling {kwsXipPrefetch : Bool} {a : Conv1dArgs} {c : Config} {l : List Access}
    (h : Setup kwsXipPrefetch a c l) : l.head? ≠ some .pollDone := by
  cases h <;> simp

/-! ## The handshake, one cycle at a time -/

namespace Sys

variable {pf : Bool} {calls : ℕ → Conv1dArgs} {s : Sys} {x : Cycle}

/-- **The handshake invariant.** The driver polls exactly between START and the DONE it waits for;
otherwise the FSM is idle. -/
inductive Inv (pf : Bool) (calls : ℕ → Conv1dArgs) (s : Sys) : Prop
  | setup (htodo : Setup pf (calls s.call) s.accel.cfg s.todo) (hidle : s.accel.fsm.state = .idle)
  | busy (htodo : s.todo = .pollDone :: afterPoll pf)
      (hcfg : s.accel.cfg.Programmed (calls s.call))
      (hbusy : s.accel.fsm.state ≠ .idle) (hdone : s.accel.fsm.rDone = false)
  | finished (htodo : s.todo = .pollDone :: afterPoll pf) (hidle : s.accel.fsm.state = .idle)
      (hdone : s.accel.fsm.rDone = true)
  | leaving (htodo : s.todo <:+ afterPoll pf) (hidle : s.accel.fsm.state = .idle)

theorem inv_init (pf : Bool) (calls : ℕ → Conv1dArgs) (r : Fsm) : Inv pf calls (init pf calls r) :=
  .setup (setup_accelConv1d pf (calls 0) _) rfl

/-- What one cycle can do. -/
inductive Move (pf : Bool) (calls : ℕ → Conv1dArgs) (s : Sys) (x : Cycle) : Prop
  /-- The START store reaches the idle FSM, and the driver goes on to poll. -/
  | start (hstart : s.Starts x) (hidle : s.accel.fsm.state = .idle)
      (hcall : (s.step pf calls x).call = s.call)
      (htodo : (s.step pf calls x).todo = .pollDone :: afterPoll pf)
      (hcfg : (s.step pf calls x).accel.cfg = s.accel.cfg)
      (hprog : s.accel.cfg.Programmed (calls s.call))
      (hfsm : (s.step pf calls x).accel.fsm
        = s.accel.fsm.step s.accel.cfg true x.hready x.hrdata)
  /-- The driver stays where it is. -/
  | stay (hstart : ¬ s.Starts x) (hexit : ¬ s.Exits x)
      (hcall : (s.step pf calls x).call = s.call) (htodo : (s.step pf calls x).todo = s.todo)
      (hcfg : (s.step pf calls x).accel.cfg = s.accel.cfg)
      (hfsm : (s.step pf calls x).accel.fsm
        = s.accel.fsm.step s.accel.cfg false x.hready x.hrdata)
  /-- The driver goes on beside an idle FSM, and not to the poll loop. -/
  | advance (hstart : ¬ s.Starts x) (hidle : s.accel.fsm.state = .idle)
      (hidle' : (s.step pf calls x).accel.fsm.state = .idle)
      (htodo : Setup pf (calls (s.step pf calls x).call) (s.step pf calls x).accel.cfg
          (s.step pf calls x).todo ∨ (s.step pf calls x).todo <:+ afterPoll pf)

/-- A cycle without a start at the port steps the FSM without START. -/
theorem step_fsm_of_not_starts (h : (s.req x).startPulse = false) :
    (s.step pf calls x).accel.fsm = s.accel.fsm.step s.accel.cfg false x.hready x.hrdata := by
  simp [step, Accel.step, h]

/-- A cycle in which the driver makes no access, or reads CTRL in vain, leaves it where it is. -/
theorem move_stay (hw : (s.req x).isWrite = false) (hexit : ¬ s.Exits x)
    (hcall : (s.step pf calls x).call = s.call) (htodo : (s.step pf calls x).todo = s.todo) :
    Move pf calls s x := by
  have hstart := ApbReq.startPulse_of_not_write hw
  refine .stay ?_ hexit hcall htodo ?_ (step_fsm_of_not_starts hstart)
  · rw [Starts, hstart]
    exact Bool.false_ne_true
  · simp [step, Accel.step, Config.step_of_not_write hw]

/-- A cycle beside an idle FSM that starts nothing. -/
theorem move_advance (hstart : (s.req x).startPulse = false) (hidle : s.accel.fsm.state = .idle)
    (htodo : Setup pf (calls (s.step pf calls x).call) (s.step pf calls x).accel.cfg
        (s.step pf calls x).todo ∨ (s.step pf calls x).todo <:+ afterPoll pf) :
    Move pf calls s x := by
  refine .advance ?_ hidle ?_ htodo
  · rw [Starts, hstart]
    exact Bool.false_ne_true
  · rw [step_fsm_of_not_starts hstart]
    exact (Fsm.step_idle hidle _ _ _).1

/-- What is left after the poll loop begins with the store that drops the prefetch enable. -/
theorem store_of_suffix {op : Access} {rest : List Access} (h : op :: rest <:+ afterPoll pf) :
    op = .store ACCEL_PREFETCH_CTRL 0 ∧ rest <:+ afterPoll pf := by
  refine ⟨?_, List.IsSuffix.trans (List.suffix_cons op rest) h⟩
  have hmem := h.subset List.mem_cons_self
  cases pf with
  | false => cases hmem
  | true => simpa [afterPoll] using hmem

/-- **Inversion of one cycle**, one case for each place the driver can be at. -/
theorem Inv.move (h : Inv pf calls s) (x : Cycle) : Move pf calls s x := by
  by_cases hx : x.access = true
  case neg =>
    have hx' : x.access = false := by simpa using hx
    have hreq : s.req x = x.bus.toApbReq := by simp [req, hx']
    exact move_stay (hreq ▸ x.bus.isWrite_eq) (fun he => hx he.1) (by simp [step, hx'])
      (by simp [step, hx'])
  cases h with
  | setup htodo hidle =>
    generalize hl : s.todo = l at htodo
    cases htodo with
    | start hprog =>
      have hctrl : (s.req x).index = 0#4 := by
        simp only [req, hx, hl, if_true]
        exact index_paddr_ctrl
      have hreq : (s.req x).startPulse = true := by
        simp only [req, hx, hl, if_true]
        exact startPulse_startStore x.bus
      refine .start hreq hidle ?_ ?_ ?_ hprog ?_
      · simp [step, next, hx, hl]
      · simp [step, next, hx, hl]
      · simp [step, Accel.step, Config.step, hctrl]
      · simp [step, Accel.step, hreq]
    | @config c off val rest hoff hrest =>
      have hreq : s.req x = (Access.store off val).req x.bus := by simp [req, hx, hl]
      refine move_advance (hreq ▸ hoff.startPulse val x.bus) hidle (.inl ?_)
      simpa [step, next, hx, hl, Accel.step, hreq, Config.store, Access.req] using hrest
  | busy htodo hcfg hbusy hdone =>
    have hread : s.readsDone x = false := by rw [readsDone_eq, hdone]
    have hreq : s.req x = Access.pollDone.req x.bus := by simp [req, hx, htodo]
    refine move_stay (by rw [hreq]; rfl) (fun he => ?_) ?_ ?_
    · rw [Exits, hread] at he
      exact Bool.false_ne_true he.2.2
    · simp [step, next, hx, htodo, hread]
    · simp [step, next, hx, htodo, hread]
  | finished htodo hidle hdone =>
    have hread : s.readsDone x = true := by rw [readsDone_eq, hdone]
    have hreq : s.req x = Access.pollDone.req x.bus := by simp [req, hx, htodo]
    refine move_advance (by rw [hreq]; rfl) hidle (.inr ?_)
    simp [step, next, hx, htodo, hread]
  | leaving htodo hidle =>
    cases hl : s.todo with
    | nil =>
      -- the call returns and the next one begins
      have hreq : s.req x = x.bus.toApbReq := by simp [req, hx, hl]
      refine move_advance (ApbReq.startPulse_of_not_write (hreq ▸ x.bus.isWrite_eq)) hidle
        (.inl ?_)
      simp [step, next, hx, hl]
      exact setup_accelConv1d pf _ _
    | cons op rest =>
      rw [hl] at htodo
      obtain ⟨rfl, hrest⟩ := store_of_suffix htodo
      have hreq : s.req x = (Access.store ACCEL_PREFETCH_CTRL 0).req x.bus := by
        simp [req, hx, hl]
      refine move_advance ?_ hidle (.inr ?_)
      · rw [hreq]
        exact IsConfigReg.startPulse (by decide) 0 x.bus
      · simpa [step, next, hx, hl] using hrest

/-! ## What the moves preserve -/

/-- The invariant survives every cycle. -/
theorem Inv.step (h : Inv pf calls s) (x : Cycle) : Inv pf calls (s.step pf calls x) := by
  cases h.move x with
  | start hstart hidle hcall htodo hcfg hprog hfsm =>
    -- the START takes the FSM out of `S_IDLE` and clears DONE
    have hfsm' := s.accel.fsm.step_start hidle s.accel.cfg x.hready x.hrdata
    rw [← hfsm] at hfsm'
    refine .busy htodo (by rwa [hcfg, hcall]) ?_ hfsm'.2
    rw [hfsm'.1]
    decide
  | advance hstart hidle hidle' htodo =>
    rcases htodo with htodo | htodo
    · exact .setup htodo hidle'
    · exact .leaving htodo hidle'
  | stay hstart hexit hcall htodo' hcfg' hfsm =>
    -- no START and no exit: the driver stays in its part of the call
    cases h with
    | setup htodo hidle =>
      refine .setup (by rwa [hcfg', hcall, htodo']) ?_
      rw [hfsm]
      exact (Fsm.step_idle hidle _ _ _).1
    | leaving htodo hidle =>
      refine .leaving (by rwa [htodo']) ?_
      rw [hfsm]
      exact (Fsm.step_idle hidle _ _ _).1
    | finished htodo hidle hdone =>
      obtain ⟨hst, hrd⟩ := Fsm.step_idle hidle s.accel.cfg x.hready x.hrdata
      exact .finished (htodo'.trans htodo) (by rw [hfsm, hst]) (by rw [hfsm, hrd, hdone])
    | busy htodo hcfg hbusy hdone =>
      by_cases hd : s.accel.fsm.state = .done
      · -- the edge out of `S_DONE` ends the run
        obtain ⟨hst, hrd⟩ := Fsm.step_done hd s.accel.cfg false x.hready x.hrdata
        exact .finished (htodo'.trans htodo) (by rw [hfsm, hst]) (by rw [hfsm, hrd])
      · obtain ⟨hst, hrd⟩ := Fsm.step_busy hbusy hdone hd s.accel.cfg false x.hready x.hrdata
        exact .busy (htodo'.trans htodo) (by rwa [hcfg', hcall]) (by rwa [hfsm]) (by rw [hfsm, hrd])

theorem not_polling_of_suffix {l : List Access} (h : l <:+ afterPoll pf) :
    l.head? ≠ some .pollDone := by
  cases l with
  | nil => simp
  | cons op rest =>
    rw [(store_of_suffix h).1]
    simp

/-- The FSM works on a run: it is not idle, and DONE is clear. -/
def Busy (s : Sys) : Prop := s.accel.fsm.state ≠ .idle ∧ s.accel.fsm.rDone = false

/-- The FSM is idle and DONE is set. -/
def Done (s : Sys) : Prop := s.accel.fsm.state = .idle ∧ s.accel.fsm.rDone = true

/-- A start is a move of its own. -/
theorem Inv.starts (h : Inv pf calls s) (hs : s.Starts x) :
    s.accel.fsm.state = .idle ∧ (s.step pf calls x).accel.fsm.state = .init ∧
      (s.step pf calls x).Busy ∧ (s.step pf calls x).accel.cfg = s.accel.cfg ∧
      s.accel.cfg.Programmed (calls s.call) := by
  cases h.move x with
  | start hstart hidle hcall htodo hcfg hprog hfsm =>
    obtain ⟨hst, hrd⟩ := s.accel.fsm.step_start hidle s.accel.cfg x.hready x.hrdata
    rw [← hfsm] at hst hrd
    exact ⟨hidle, hst, ⟨by rw [hst]; decide, hrd⟩, hcfg, hprog⟩
  | stay hstart => exact absurd hs hstart
  | advance hstart => exact absurd hs hstart

/-- While the FSM is busy the configuration stays. -/
theorem Inv.cfg_of_busy (h : Inv pf calls s) (hs : s.accel.fsm.state ≠ .idle) (x : Cycle) :
    (s.step pf calls x).accel.cfg = s.accel.cfg := by
  cases h.move x with
  | start _ hidle => exact absurd hidle hs
  | stay _ _ _ _ hcfg => exact hcfg
  | advance _ hidle => exact absurd hidle hs

/-- A busy FSM stays busy until it is done. -/
theorem Busy.step (h : s.Busy) (x : Cycle)
    (hfsm : (s.step pf calls x).accel.fsm
      = s.accel.fsm.step s.accel.cfg false x.hready x.hrdata) :
    (s.step pf calls x).Busy ∨ s.accel.fsm.state = .done ∧ (s.step pf calls x).Done := by
  by_cases hd : s.accel.fsm.state = .done
  · refine .inr ⟨hd, ?_⟩
    rw [Done, hfsm]
    exact Fsm.step_done hd _ _ _ _
  · refine .inl ?_
    rw [Busy, hfsm]
    exact Fsm.step_busy h.1 h.2 hd _ _ _ _

/-- Without a START, DONE stays. -/
theorem Done.step (h : s.Done) (x : Cycle)
    (hfsm : (s.step pf calls x).accel.fsm
      = s.accel.fsm.step s.accel.cfg false x.hready x.hrdata) : (s.step pf calls x).Done := by
  obtain ⟨hst, hrd⟩ := Fsm.step_idle h.1 s.accel.cfg x.hready x.hrdata
  exact ⟨by rw [hfsm, hst], by rw [hfsm, hrd, h.2]⟩

/-- The driver goes through the list of its call and then to the next call. -/
theorem step_todo (s : Sys) (x : Cycle) :
    (s.step pf calls x).call = s.call ∧ (s.step pf calls x).todo <:+ s.todo ∨
      s.call < (s.step pf calls x).call := by
  cases hx : x.access with
  | false => exact .inl ⟨by simp [step, hx], by simp [step, hx]⟩
  | true =>
    cases hl : s.todo with
    | nil => exact .inr (by simp [step, next, hx, hl])
    | cons op rest =>
      refine .inl ?_
      cases op with
      | store off val => simp [step, next, hx, hl]
      | pollDone => cases hr : s.readsDone x <;> simp [step, next, hx, hl, hr]

/-- Nothing from the poll loop on is a START. -/
theorem not_starts_of_suffix (h : s.todo <:+ .pollDone :: afterPoll pf) (x : Cycle) :
    ¬ s.Starts x := by
  rw [Starts, Bool.not_eq_true]
  cases hx : x.access with
  | false =>
    have hreq : s.req x = x.bus.toApbReq := by simp [req, hx]
    exact ApbReq.startPulse_of_not_write (hreq ▸ x.bus.isWrite_eq)
  | true =>
    cases hl : s.todo with
    | nil =>
      have hreq : s.req x = x.bus.toApbReq := by simp [req, hx, hl]
      exact ApbReq.startPulse_of_not_write (hreq ▸ x.bus.isWrite_eq)
    | cons op rest =>
      have hreq : s.req x = op.req x.bus := by simp [req, hx, hl]
      rw [hl] at h
      rw [hreq]
      rcases List.suffix_cons_iff.mp h with heq | hsuf
      · obtain ⟨rfl, -⟩ := List.cons.inj heq
        rfl
      · rw [(store_of_suffix hsuf).1]
        exact IsConfigReg.startPulse (by decide) 0 x.bus

/-! ## Whole runs -/

section Runs

variable (pf : Bool) (calls : ℕ → Conv1dArgs) (r : Fsm) (i : ℕ → Cycle)

theorem run_succ (n : ℕ) : run pf calls r i (n + 1) = (run pf calls r i n).step pf calls (i n) := rfl

theorem inv_run (n : ℕ) : Inv pf calls (run pf calls r i n) :=
  trace_invariant (Inv pf calls) (inv_init pf calls r) (fun n h => h.step (i n)) n

/-- The START of cycle `m` begins a run of the FSM whose last state is that of cycle `d`: DONE is
clear until then, and the edge after `d` sets it. -/
structure RunOf (s : ℕ → Sys) (i : ℕ → Cycle) (m d : ℕ) : Prop where
  starts : (s m).Starts (i m)
  lt : m < d
  busy : ∀ t, m < t → t ≤ d → (s t).Busy
  last : (s d).accel.fsm.state = .done

/-- What a polling driver waits for: the end of the run that its own call has started, or that
run is over and DONE has been set since. -/
def Awaits (s : ℕ → Sys) (i : ℕ → Cycle) (n : ℕ) : Prop :=
  ∃ m < n, (s m).Starts (i m) ∧ (s m).call = (s n).call ∧
    ((∀ t, m < t → t ≤ n → (s t).Busy) ∨
      ∃ d < n, RunOf s i m d ∧ ∀ t, d < t → t ≤ n → (s t).Done)

/-- **A polling driver waits for its own run.** The induction is on the cycle: a poll loop is
entered through a START only, and stays in its call. -/
theorem awaits_of_polling (n : ℕ) (hp : (run pf calls r i n).Polling) :
    Awaits (run pf calls r i) i n := by
  induction n with
  | zero => exact absurd hp (Setup.not_polling (setup_accelConv1d pf (calls 0) Config.reset))
  | succ n ih =>
    rw [run_succ] at hp
    have hinv := inv_run pf calls r i n
    -- a poll loop is entered by a START, and left before anything else happens
    cases hinv.move (i n) with
    | start hstart _ hcall =>
      refine ⟨n, Nat.lt_succ_self n, hstart, hcall.symm, .inl fun t ht htn => ?_⟩
      obtain rfl : t = n + 1 := by omega
      exact (hinv.starts hstart).2.2.1
    | advance _ _ _ htodo =>
      rcases htodo with htodo | htodo
      · exact absurd hp htodo.not_polling
      · exact absurd hp (not_polling_of_suffix htodo)
    | stay _ _ hcall htodo _ hfsm =>
      rw [Polling, htodo] at hp
      obtain ⟨m, hmn, hstart, hm, hrun⟩ := ih hp
      refine ⟨m, by omega, hstart, hm.trans hcall.symm, ?_⟩
      -- the run of this call is still on, or has set DONE already
      rcases hrun with hbusy | ⟨d, hd, hrun, hdone⟩
      · rcases (hbusy n hmn le_rfl).step (i n) hfsm with hb | ⟨hlast, hb⟩
        · refine .inl fun t ht htn => ?_
          rcases Nat.lt_or_eq_of_le htn with hlt | rfl
          · exact hbusy t ht (by omega)
          · exact hb
        · -- this edge sets DONE
          refine .inr ⟨n, by omega, ⟨hstart, hmn, hbusy, hlast⟩, fun t ht htn => ?_⟩
          obtain rfl : t = n + 1 := by omega
          exact hb
      · refine .inr ⟨d, by omega, hrun, fun t ht htn => ?_⟩
        rcases Nat.lt_or_eq_of_le htn with hlt | rfl
        · exact hdone t ht (by omega)
        · exact (hdone n (by omega) le_rfl).step (i n) hfsm

/-- After its START a call has nothing to start any more. -/
theorem past_start {m : ℕ} (hm : (run pf calls r i m).Starts (i m)) (k : ℕ) :
    (run pf calls r i m).call < (run pf calls r i (m + 1 + k)).call ∨
      (run pf calls r i m).call = (run pf calls r i (m + 1 + k)).call ∧
        (run pf calls r i (m + 1 + k)).todo <:+ .pollDone :: afterPoll pf := by
  induction k with
  | zero =>
    cases (inv_run pf calls r i m).move (i m) with
    | start _ _ hcall htodo => exact .inr ⟨hcall.symm, htodo ▸ List.suffix_refl _⟩
    | stay hstart => exact absurd hm hstart
    | advance hstart => exact absurd hm hstart
  | succ k ih =>
    rw [show m + 1 + (k + 1) = m + 1 + k + 1 by omega, run_succ]
    -- what is left of a call only shrinks, until the next call begins
    rcases step_todo (run pf calls r i (m + 1 + k)) (i (m + 1 + k)) with ⟨hcall, hsuf⟩ | hlt
    · rw [hcall]
      exact ih.imp_right fun h => ⟨h.1, hsuf.trans h.2⟩
    · left
      rcases ih with h | h <;> omega

/-- **A call starts one run.** -/
theorem starts_unique {m m' : ℕ} (hm : (run pf calls r i m).Starts (i m))
    (hm' : (run pf calls r i m').Starts (i m'))
    (hcall : (run pf calls r i m).call = (run pf calls r i m').call) : m = m' := by
  wlog hlt : m < m' generalizing m m'
  · rcases Nat.lt_or_eq_of_le (Nat.le_of_not_lt hlt) with h | h
    · exact (this hm' hm hcall.symm h).symm
    · exact h.symm
  -- after the first START this call has none left
  obtain ⟨k, rfl⟩ := Nat.exists_eq_add_of_le (Nat.succ_le_of_lt hlt)
  rcases past_start pf calls r i hm k with h | ⟨-, h⟩
  · exact absurd hcall h.ne
  · exact absurd hm' (not_starts_of_suffix h _)

/-- **The configuration stands still** from a START for as long as the FSM does not go idle. -/
theorem cfg_of_starts {m : ℕ} (hm : (run pf calls r i m).Starts (i m)) (k : ℕ)
    (hbusy : ∀ t, m < t → t < m + 1 + k → (run pf calls r i t).accel.fsm.state ≠ .idle) :
    (run pf calls r i (m + 1 + k)).accel.cfg = (run pf calls r i m).accel.cfg := by
  induction k with
  | zero => exact ((inv_run pf calls r i m).starts hm).2.2.2.1
  | succ k ih =>
    have hk := (inv_run pf calls r i (m + 1 + k)).cfg_of_busy (hbusy _ (by omega) (by omega))
      (i (m + 1 + k))
    exact hk.trans (ih fun t ht htk => hbusy t ht (by omega))

/-- **A run works on the arguments of its call.** -/
theorem run_arguments {m : ℕ} (hm : (run pf calls r i m).Starts (i m)) :
    (run pf calls r i m).accel.cfg.Programmed (calls (run pf calls r i m).call) :=
  ((inv_run pf calls r i m).starts hm).2.2.2.2

/-- **Once the run is over, the next poll exits.** -/
theorem exits_of_idle {n : ℕ} (hp : (run pf calls r i n).Polling)
    (hidle : (run pf calls r i n).accel.fsm.state = .idle) (hx : (i n).access = true) :
    (run pf calls r i n).Exits (i n) := by
  refine ⟨hx, hp, ?_⟩
  rw [readsDone_eq]
  -- the FSM is not busy, so the run of the call has set DONE
  obtain ⟨m, hmn, -, -, hbusy | ⟨d, hd, -, hdone⟩⟩ := awaits_of_polling pf calls r i n hp
  · exact absurd hidle (hbusy n hmn le_rfl).1
  · exact (hdone n hd le_rfl).2

end Runs

/-- **The handshake.** For every sequence of calls, with or without the prefetch hint, with any
cycles between the accesses and any timing of the accelerator's transfers:

* a START reaches an idle FSM, which takes it;
* a poll loop exits on the DONE set by the one run that its own call has started: DONE was clear
  throughout that run and the FSM has been idle with DONE set since;
* from a START until the FSM is idle again, no configuration register changes. -/
theorem handshake (kwsXipPrefetch : Bool) (calls : ℕ → Conv1dArgs) (r : Fsm) (i : ℕ → Cycle) :
    let s := run kwsXipPrefetch calls r i
    (∀ m, (s m).Starts (i m) →
      (s m).accel.fsm.state = .idle ∧ (s (m + 1)).accel.fsm.state = .init) ∧
    (∀ n, (s n).Exits (i n) → ∃ m d, RunOf s i m d ∧ d < n ∧
      (∀ m', (s m').Starts (i m') ∧ (s m').call = (s n).call ↔ m' = m) ∧
      ∀ t, d < t → t ≤ n → (s t).Done) ∧
    (∀ m n, (s m).Starts (i m) → m ≤ n →
      (∀ t, m < t → t < n → (s t).accel.fsm.state ≠ .idle) →
      (s n).accel.cfg = (s m).accel.cfg) := by
  intro s
  refine ⟨fun m hm => ?_, fun n hn => ?_, fun m n hm hmn hbusy => ?_⟩
  · have h := (inv_run kwsXipPrefetch calls r i m).starts hm
    exact ⟨h.1, h.2.1⟩
  · obtain ⟨m, hmn, hstart, hcall, hrun⟩ := awaits_of_polling kwsXipPrefetch calls r i n hn.2.1
    have hdone : (s n).accel.fsm.rDone = true := by
      rw [← readsDone_eq (s n) (i n)]
      exact hn.2.2
    rcases hrun with hbusy | ⟨d, hd, hrun, hset⟩
    · -- DONE is clear while the run is on
      have hclear := (hbusy n hmn le_rfl).2
      exact absurd (hdone.symm.trans hclear) (by decide)
    · refine ⟨m, d, hrun, hd, fun m' => ⟨fun hm' => ?_, ?_⟩, hset⟩
      · exact starts_unique kwsXipPrefetch calls r i hm'.1 hstart (hm'.2.trans hcall.symm)
      · rintro rfl
        exact ⟨hstart, hcall⟩
  · rcases Nat.lt_or_eq_of_le hmn with hlt | rfl
    · obtain ⟨k, rfl⟩ := Nat.exists_eq_add_of_le (Nat.succ_le_of_lt hlt)
      exact cfg_of_starts kwsXipPrefetch calls r i hm k hbusy
    · rfl

/-- A call with every size 1, made over and over with an access in every cycle. In cycle 41 the
second START is written while DONE of the first run is still set; the poll right after it reads
DONE clear. -/
example :
    let s := run true (fun _ => ⟨0x100, 0x200, 0x300, 0x400, 0x500, 1, 1, 1, 1, 1⟩) Fsm.blank
      (fun _ => ⟨true, ⟨ApbReq.none, rfl⟩, true, 0⟩)
    (s 41).accel.fsm.rDone = true ∧ (s 42).accel.fsm.rDone = false := by decide +kernel

end Sys

end KwsSoc.Conv1dAccel
