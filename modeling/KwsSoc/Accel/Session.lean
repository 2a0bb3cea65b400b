import KwsSoc.Accel.Driver
import KwsSoc.Accel.Termination

/-! # Calls on a shared memory

Driver, accelerator and memory in one closed system (`Soc`): call after call of `accel_conv1d`, with
any cycles between the accesses, any stalls of reads, and other masters that rewrite the memory
while no call is under way. `mem_eq_spec` compares the memory with an abstract machine in which
every call is one atomic step (`spec`): they agree in every cycle outside the poll loops.
`call_returns` adds that every call gets to its end. -/

namespace KwsSoc.Conv1dAccel

open SyncMachine

/-! ## The closed system -/

/-- Driver and accelerator, and the slave at the accelerator's AHB port. -/
structure Soc where
  drv : Sys
  slave : Slave

/-- The inputs of one cycle: those of the driver, whether the slave is ready, what it drives on
`hrdata` when it is not, and what other masters do to its memory. -/
structure SocIn where
  access : Bool
  bus : IdleReq
  hready : Bool
  junk : BitVec 32
  others : Mem → Mem

/-- The configuration registers with the arguments of a call. -/
def Conv1dArgs.config (a : Conv1dArgs) : Config :=
  { Config.reset with
    rSrcAddr := a.src, rWtAddr := a.wt, rDstAddr := a.dst, rBsAddr := a.bias32
    rShiftAddr := a.shiftArr, rCIn := a.cIn, rCOut := a.cOut, rKW := a.kW, rStride := a.stride
    rWIn := a.wIn }

/-- **What a call is for**: the memory with all reference outputs stored. -/
def Conv1dArgs.result (a : Conv1dArgs) (m : Mem) : Mem :=
  outMem a.config m (a.config.rCOut.toNat * a.config.wOut)

namespace Conv1dArgs

variable {a : Conv1dArgs} {m : Mem}

/-- A call leaves the other bytes alone. -/
theorem result_of_notMem (hv : a.config.Valid) {x : BitVec 32} (hx : x ∉ a.config.dstRegion) :
    a.result m x = m x :=
  outMem_of_notMem hv m hx le_rfl

end Conv1dArgs

namespace Soc

/-- The accelerator with its slave. -/
def bench (s : Soc) : Bench := ⟨s.drv.accel, s.slave⟩

/-- The cycle as driver and accelerator see it. -/
def cycle (s : Soc) (x : SocIn) : Cycle :=
  ⟨x.access, x.bus, x.hready, if x.hready then s.slave.hrdata else x.junk⟩

/-- The cycle as accelerator and slave see it. -/
def benchIn (s : Soc) (x : SocIn) : BenchIn := ⟨s.drv.req (s.cycle x), x.hready, x.junk⟩

/-- The slave after an edge, before the other masters. -/
def stepSlave (s : Soc) (x : SocIn) : Slave := s.slave.step x.hready s.drv.accel.fsm.masterOut

/-- One clock cycle. -/
def step (kwsXipPrefetch : Bool) (calls : ℕ → Conv1dArgs) (s : Soc) (x : SocIn) : Soc where
  drv := s.drv.step kwsXipPrefetch calls (s.cycle x)
  slave := { s.stepSlave x with mem := x.others (s.stepSlave x).mem }

/-- After reset, over any memory. -/
def init (kwsXipPrefetch : Bool) (calls : ℕ → Conv1dArgs) (r : Fsm) (mem : Mem) : Soc :=
  ⟨Sys.init kwsXipPrefetch calls r, ⟨false, 0, false, 0, mem⟩⟩

/-- The run of a sequence of calls. -/
def run (kwsXipPrefetch : Bool) (calls : ℕ → Conv1dArgs) (r : Fsm) (mem : Mem) (i : ℕ → SocIn) :
    ℕ → Soc :=
  trace (step kwsXipPrefetch calls) (init kwsXipPrefetch calls r mem) i

/-- A START is written. -/
def Starts (s : Soc) (x : SocIn) : Prop := s.drv.Starts (s.cycle x)

/-- The poll loop of the current call exits. -/
def Exits (s : Soc) (x : SocIn) : Prop := s.drv.Exits (s.cycle x)

instance (s : Soc) (x : SocIn) : Decidable (s.Exits x) := by
  unfold Exits Sys.Exits Sys.Polling
  infer_instance

/-- **The abstract machine** beside a run: at the end of a poll loop the call takes effect as one
step, and in every other cycle only the other masters do anything. -/
def spec (calls : ℕ → Conv1dArgs) (s : ℕ → Soc) (i : ℕ → SocIn) (mem : Mem) : ℕ → Mem
  | 0 => mem
  | n + 1 =>
    if (s n).Exits (i n) then (calls (s n).drv.call).result (spec calls s i mem n)
    else (i n).others (spec calls s i mem n)

/-- **What a run relies on**: a write is never stalled in its data phase, and the other masters
leave the memory alone from the START of a call to the end of its poll loop. -/
structure Legal (s : ℕ → Soc) (i : ℕ → SocIn) : Prop where
  writes : ∀ n, (s n).slave.writePending = true → (i n).hready = true
  others : ∀ n, (s n).Starts (i n) ∨ (s n).drv.Polling → ∀ m, (i n).others m = m

end Soc

/-! ## The arguments as a configuration -/

namespace Config.Programmed

variable {a : Conv1dArgs} {c : Config}

/-- Beside the arguments the registers hold what no run reads. -/
theorem eq_config (h : c.Programmed a) :
    c = { a.config with
      rShift := c.rShift, rPrefetchEn := c.rPrefetchEn, rPrefetchBase := c.rPrefetchBase
      rPrefetchLen := c.rPrefetchLen } := by
  obtain ⟨hsrc, hwt, hdst, hbias, hshift, hcIn, hcOut, hkW, hstride, hwIn⟩ := h
  rw [Conv1dArgs.config, ← hsrc, ← hwt, ← hdst, ← hbias, ← hshift, ← hcIn, ← hcOut, ← hkW,
    ← hstride, ← hwIn]

theorem valid (h : c.Programmed a) (hv : a.config.Valid) : c.Valid := by
  rw [h.eq_config]
  exact ⟨hv.cIn, hv.cOut, hv.kW, hv.stride, hv.kW_le, hv.taps_le, hv.src, hv.wt, hv.bias, hv.shift,
    hv.dst, hv.disjSrc, hv.disjWt, hv.disjBias, hv.disjShift⟩

theorem shape (h : c.Programmed a) (hs : a.config.Shape) : c.Shape := by
  rw [h.eq_config]
  exact ⟨hs.cIn, hs.cOut, hs.kW, hs.stride, hs.kW_le, hs.taps_le⟩

theorem weightLoadsEnd (h : c.Programmed a) (hw : a.config.WeightLoadsEnd) :
    c.WeightLoadsEnd := by
  rw [h.eq_config]
  exact hw

theorem outMem_eq (h : c.Programmed a) (m : Mem) (k : ℕ) : outMem c m k = outMem a.config m k := by
  induction k with
  | zero => rfl
  | succ k ih =>
    rw [outMem, outMem, ih, h.eq_config]
    rfl

theorem result_eq (h : c.Programmed a) (m : Mem) :
    outMem c m (c.rCOut.toNat * c.wOut) = a.result m := by
  rw [h.outMem_eq, Conv1dArgs.result, h.eq_config]
  rfl

end Config.Programmed

/-! ## The end of a run -/

/-- The states from which a run of the FSM ends, and those that follow. -/
def State.isTail : State → Bool
  | .writeAddr | .writeData | .advance | .done | .idle => true
  | _ => false

/-- The tail of a run is entered in `S_WRITE_ADDR`. -/
theorem Fsm.step_isTail {r : Fsm} (h : r.state.isTail = false) (c : Config) (st hr : Bool)
    (d : BitVec 32) :
    (r.step c st hr d).state ≠ .writeData ∧ (r.step c st hr d).state ≠ .advance ∧
      (r.step c st hr d).state ≠ .done ∧ (r.step c st hr d).state ≠ .idle := by
  cases hs : r.state
  case macOvlp =>
    rw [step_of_macOvlp hs, Bench.sMacOvlp_eq]
    dsimp only
    split <;> simp [hs]
  case writeAddr | writeData | advance | done | idle =>
    rw [hs] at h
    cases h
  all_goals
    simp only [step, hs, sInit, sInAddr, sInData, sWtAddr, sWtData, sMac, sBiasAddr, sBiasData,
      sWtDataW, sShiftData]
    repeat' split
    all_goals simp [hs]

namespace Bench

/-- **How a run ends** on a slave that never stalls a write: the last write is accepted in
`S_WRITE_DATA`, is over in `S_ADVANCE`, and nothing follows it. -/
structure Settles (b : Bench) : Prop where
  writeData : b.fsm.state = .writeData → b.fsm.htrans = HTRANS_NONSEQ ∧ b.fsm.hwrite = true
  advance : b.fsm.state = .advance → b.fsm.htrans = HTRANS_IDLE ∧ b.slave.apWr = true
  ended : b.fsm.state = .done ∨ b.fsm.state = .idle →
    b.fsm.htrans = HTRANS_IDLE ∧ b.slave.apValid = false

/-- An edge with an idle bus leaves no address phase, if it is ready or there was none. -/
theorem apValid_step {b : Bench} {x : BenchIn} (ht : b.fsm.htrans = HTRANS_IDLE)
    (h : x.hready = true ∨ b.slave.apValid = false) : (b.step x).slave.apValid = false := by
  cases hr : x.hready with
  | true =>
    rw [step_slave_ready b hr, ht]
    rfl
  | false =>
    rw [step_slave_stall b hr]
    exact h.resolve_left (by rw [hr]; decide)

theorem Settles.step {b : Bench} {x : BenchIn} (h : Settles b)
    (hw : b.slave.writePending = true → x.hready = true) : Settles (b.step x) := by
  have hf : (b.step x).fsm = b.fsm.step b.dut.cfg x.apb.startPulse x.hready (b.hrdata x) := rfl
  by_cases htail : b.fsm.state.isTail = false
  · -- before the tail there is nothing to say
    obtain ⟨h1, h2, h3, h4⟩ :=
      b.fsm.step_isTail htail b.dut.cfg x.apb.startPulse x.hready (b.hrdata x)
    exact ⟨fun hs => absurd hs h1, fun hs => absurd hs h2,
      fun hs => absurd hs (not_or.mpr ⟨h3, h4⟩)⟩
  cases hs : b.fsm.state
  case writeAddr =>
    rw [Fsm.step_of_writeAddr hs] at hf
    constructor <;> simp [hf, Fsm.sWriteAddr]
  case writeData =>
    rw [Fsm.step_of_writeData hs] at hf
    obtain ⟨ht, hwr⟩ := h.writeData hs
    cases hr : x.hready with
    | false =>
      rw [hr] at hf
      constructor <;> simp [hf, Fsm.sWriteData, hs, ht, hwr]
    | true =>
      rw [hr] at hf
      constructor <;> simp [hf, Fsm.sWriteData, step_slave_ready b hr, hwr]
  case advance =>
    obtain ⟨ht, hwr⟩ := h.advance hs
    have hap : (b.step x).slave.apValid = false := by
      refine apValid_step ht ?_
      cases hap : b.slave.apValid
      · exact .inr rfl
      · exact .inl (hw (by simp [Slave.writePending, hap, hwr]))
    rw [Fsm.step_of_advance hs] at hf
    constructor <;> simp only [hf, Fsm.sAdvance] <;> split_ifs <;> simp [ht, hap]
  case done =>
    obtain ⟨ht, hv⟩ := h.ended (.inl hs)
    have hap := apValid_step (x := x) ht (.inr hv)
    rw [Fsm.step_of_done hs] at hf
    constructor <;> simp [hf, Fsm.sDone, hap]
  case idle =>
    obtain ⟨ht, hv⟩ := h.ended (.inr hs)
    have hap := apValid_step (x := x) ht (.inr hv)
    rw [Fsm.step_of_idle hs] at hf
    constructor <;> simp only [hf, Fsm.sIdle] <;> split_ifs <;> simp [hs, hap]
  all_goals exact absurd (by rw [hs]; rfl) htail

/-- An idle accelerator at the end of a run is ready for the next one. -/
theorem Settles.quiescent {b : Bench} (h : Settles b) (hw : WriteInv b)
    (hs : b.fsm.state = .idle) : b.Quiescent := by
  refine ⟨hs, (h.ended (.inr hs)).1, ?_, (h.ended (.inr hs)).2⟩
  cases hwr : b.dut.fsm.hwrite
  · rfl
  · have hd := hw.hwrite hwr
    rw [hs] at hd
    cases hd

end Bench

/-! ## A session of small calls -/

/-- A call with every size 1. -/
def smallCall : Conv1dArgs := ⟨0x100, 0x200, 0x300, 0x400, 0x500, 1, 1, 1, 1, 1⟩

theorem valid_smallCall : smallCall.config.Valid where
  cIn := by decide
  cOut := by decide
  kW := by decide
  stride := by decide
  kW_le := by decide
  taps_le := by decide
  src := by decide
  wt := by decide
  bias := by decide
  shift := by decide
  dst := by decide
  disjSrc x hx hy := by
    have h1 : 0x300 ≤ x.toNat := hx.1
    have h2 : x.toNat < 0x100 + 1 := hy.2
    omega
  disjWt x hx hy := by
    have h1 : 0x300 ≤ x.toNat := hx.1
    have h2 : x.toNat < 0x200 + 1 := hy.2
    omega
  disjBias x hx hy := by
    have h1 : x.toNat < 0x300 + 1 := hx.2
    have h2 : 0x400 ≤ x.toNat := hy.1
    omega
  disjShift x hx hy := by
    have h1 : x.toNat < 0x300 + 1 := hx.2
    have h2 : 0x500 ≤ x.toNat := hy.1
    omega

theorem ApbReq.none_notEnabled : (ApbReq.none.psel && ApbReq.none.penable) = false := rfl

/-- An access in every cycle, no stall and no other master. -/
def steady (_ : ℕ) : SocIn := ⟨true, ⟨ApbReq.none, ApbReq.none_notEnabled⟩, true, 0, id⟩

theorem Soc.legal_steady (s : ℕ → Soc) : Legal s steady := ⟨fun _ _ => rfl, fun _ _ _ => rfl⟩

/-! ## The poll loop -/

namespace Sys

variable {pf : Bool} {calls : ℕ → Conv1dArgs} {s : Sys} {x : Cycle}

/-- A poll loop writes no register. -/
theorem Polling.isWrite_eq (hp : s.Polling) (x : Cycle) : (s.req x).isWrite = false := by
  cases hx : x.access with
  | false =>
    have hreq : s.req x = x.bus.toApbReq := by simp [req, hx]
    exact hreq ▸ x.bus.isWrite_eq
  | true =>
    cases hl : s.todo with
    | nil =>
      rw [Polling, hl] at hp
      cases hp
    | cons op rest =>
      obtain rfl : op = .pollDone := by
        rw [Polling, hl] at hp
        exact Option.some.inj hp
      have hreq : s.req x = Access.pollDone.req x.bus := by simp [req, hx, hl]
      rw [hreq]
      rfl

theorem Polling.not_starts (hp : s.Polling) (x : Cycle) : ¬ s.Starts x := by
  rw [Starts, ApbReq.startPulse_of_not_write (hp.isWrite_eq x)]
  exact Bool.false_ne_true

/-- A poll loop goes on until it exits. -/
theorem Polling.step (hp : s.Polling) (hx : ¬ s.Exits x) :
    (s.step pf calls x).Polling ∧ (s.step pf calls x).call = s.call := by
  cases hl : s.todo with
  | nil =>
    rw [Polling, hl] at hp
    cases hp
  | cons op rest =>
    obtain rfl : op = .pollDone := by
      rw [Polling, hl] at hp
      exact Option.some.inj hp
    by_cases ha : x.access = true
    · have hr : s.readsDone x = false := by
        rw [← Bool.not_eq_true]
        exact fun hr => hx ⟨ha, hp, hr⟩
      simp [Polling, Sys.step, next, ha, hl, hr]
    · simp [Polling, Sys.step, ha, hl]

/-- The exit leaves the poll loop. -/
theorem Inv.not_polling_of_exits (h : Inv pf calls s) (hx : s.Exits x) :
    ¬ (s.step pf calls x).Polling := by
  cases h.move x with
  | start hstart => exact absurd hstart (hx.2.1.not_starts x)
  | stay _ hexit => exact absurd hx hexit
  | advance _ _ _ htodo =>
    rcases htodo with htodo | htodo
    · exact htodo.not_polling
    · exact not_polling_of_suffix htodo

/-- The driver polls, or the accelerator is idle. -/
theorem Inv.polling_or_idle (h : Inv pf calls s) : s.Polling ∨ s.accel.fsm.state = .idle := by
  cases h with
  | setup _ hidle => exact .inr hidle
  | busy htodo => exact .inl (by rw [Polling, htodo]; rfl)
  | finished _ hidle => exact .inr hidle
  | leaving _ hidle => exact .inr hidle

/-- What an exit leaves to do has no poll loop. -/
theorem Inv.not_mem_of_exits (h : Inv pf calls s) (hx : s.Exits x) :
    .pollDone ∉ (s.step pf calls x).todo ∧ (s.step pf calls x).call = s.call := by
  have htodo : s.todo = .pollDone :: afterPoll pf := by
    cases h with
    | setup htodo => exact absurd hx.2.1 htodo.not_polling
    | busy htodo => exact htodo
    | finished htodo => exact htodo
    | leaving htodo => exact absurd hx.2.1 (not_polling_of_suffix htodo)
  have hstep : (s.step pf calls x).todo = afterPoll pf ∧ (s.step pf calls x).call = s.call := by
    simp [Sys.step, next, hx.1, htodo, hx.2.2]
  rw [hstep.1]
  exact ⟨by cases pf <;> simp [afterPoll], hstep.2⟩

variable (pf calls) (r : Fsm) (i : ℕ → Cycle)

/-- **A poll loop begins right after the START of its call.** -/
theorem polling_since (n : ℕ) (hp : (run pf calls r i n).Polling) :
    ∃ m < n, (run pf calls r i m).Starts (i m) ∧
      (run pf calls r i m).call = (run pf calls r i n).call ∧
      ∀ t, m < t → t ≤ n → (run pf calls r i t).Polling := by
  induction n with
  | zero => exact absurd hp (Setup.not_polling (setup_accelConv1d pf (calls 0) Config.reset))
  | succ n ih =>
    have hp' := hp
    rw [run_succ] at hp'
    cases (inv_run pf calls r i n).move (i n) with
    | start hstart _ hcall =>
      refine ⟨n, Nat.lt_succ_self n, hstart, hcall.symm, fun t ht htn => ?_⟩
      obtain rfl : t = n + 1 := by omega
      exact hp
    | advance _ _ _ htodo =>
      rcases htodo with htodo | htodo
      · exact absurd hp' htodo.not_polling
      · exact absurd hp' (not_polling_of_suffix htodo)
    | stay _ _ hcall htodo =>
      rw [Polling, htodo] at hp'
      obtain ⟨m, hmn, hstart, hm, hall⟩ := ih hp'
      refine ⟨m, by omega, hstart, hm.trans hcall.symm, fun t ht htn => ?_⟩
      rcases Nat.lt_or_eq_of_le htn with hlt | rfl
      · exact hall t ht (by omega)
      · exact hp

/-! ## The driver moves on -/

variable {r i}

section Progress

variable (haccess : ∀ n, ∃ m, n ≤ m ∧ (i m).access = true)
include haccess

/-- Until its next access the driver stays where it is. -/
theorem next_access (n : ℕ) :
    ∃ m, n ≤ m ∧ (i m).access = true ∧ (run pf calls r i m).todo = (run pf calls r i n).todo ∧
      (run pf calls r i m).call = (run pf calls r i n).call := by
  obtain ⟨m, hnm, hm⟩ := haccess n
  obtain ⟨d, rfl⟩ := Nat.exists_eq_add_of_le hnm
  clear hnm
  induction d generalizing n with
  | zero => exact ⟨n, le_rfl, hm, rfl, rfl⟩
  | succ d ih =>
    by_cases hx : (i n).access = true
    · exact ⟨n, le_rfl, hx, rfl, rfl⟩
    · obtain ⟨m, hnm, hx', htodo, hcall⟩ := ih (n + 1) (by rwa [Nat.add_assoc, Nat.add_comm 1 d])
      refine ⟨m, by omega, hx', htodo.trans ?_, hcall.trans ?_⟩ <;> simp [run_succ, Sys.step, hx]

/-- A store is followed by what stands after it. -/
theorem next_of_store {n : ℕ} {off val : BitVec 32} {rest : List Access}
    (hl : (run pf calls r i n).todo = .store off val :: rest) :
    ∃ m, n ≤ m ∧ (run pf calls r i m).todo = rest ∧
      (run pf calls r i m).call = (run pf calls r i n).call := by
  obtain ⟨m, hnm, hx, htodo, hcall⟩ := next_access pf calls (r := r) haccess n
  refine ⟨m + 1, by omega, ?_, ?_⟩
  · simp [run_succ, Sys.step, next, hx, htodo, hl]
  · simp [run_succ, Sys.step, next, hx, htodo, hl, hcall]

/-- A call that still has its poll loop to make gets there. -/
theorem exists_polling {n : ℕ} {l : List Access} (hl : (run pf calls r i n).todo = l)
    (hmem : .pollDone ∈ l) :
    ∃ m, n ≤ m ∧ (run pf calls r i m).Polling ∧
      (run pf calls r i m).call = (run pf calls r i n).call := by
  induction l generalizing n with
  | nil => cases hmem
  | cons op rest ih =>
    cases op with
    | pollDone => exact ⟨n, le_rfl, by rw [Polling, hl]; rfl, rfl⟩
    | store off val =>
      obtain ⟨m, hnm, htodo, hcall⟩ := next_of_store pf calls haccess hl
      obtain ⟨m', hm, hp, hcall'⟩ := ih htodo (by simpa using hmem)
      exact ⟨m', hnm.trans hm, hp, hcall'.trans hcall⟩

/-- A call that has made its poll loop is followed by the next one. -/
theorem exists_next_call {n : ℕ} {l : List Access} (hl : (run pf calls r i n).todo = l)
    (hmem : .pollDone ∉ l) :
    ∃ m, n ≤ m ∧ (run pf calls r i m).call = (run pf calls r i n).call + 1 ∧
      (run pf calls r i m).todo = accelConv1d pf (calls ((run pf calls r i n).call + 1)) := by
  induction l generalizing n with
  | nil =>
    obtain ⟨m, hnm, hx, htodo, hcall⟩ := next_access pf calls (r := r) haccess n
    refine ⟨m + 1, by omega, ?_, ?_⟩ <;> simp [run_succ, Sys.step, next, hx, htodo, hl, hcall]
  | cons op rest ih =>
    cases op with
    | pollDone => exact absurd List.mem_cons_self hmem
    | store off val =>
      obtain ⟨m, hnm, htodo, hcall⟩ := next_of_store pf calls haccess hl
      obtain ⟨m', hm, hcall', htodo'⟩ := ih htodo fun h => hmem (List.mem_cons_of_mem _ h)
      rw [hcall] at hcall' htodo'
      exact ⟨m', hnm.trans hm, hcall', htodo'⟩

end Progress

end Sys

/-! ## The closed system and its parts -/

namespace Soc

variable {pf : Bool} {calls : ℕ → Conv1dArgs} {r : Fsm} {mem : Mem} {i : ℕ → SocIn}

/-- Without other masters an edge is one of accelerator and slave. -/
theorem bench_step (s : Soc) {x : SocIn} (h : ∀ m, x.others m = m) :
    (s.step pf calls x).bench = s.bench.step (s.benchIn x) := by
  rw [bench, step, h]
  rfl

theorem run_succ (n : ℕ) :
    run pf calls r mem i (n + 1) = (run pf calls r mem i n).step pf calls (i n) := rfl

/-- The driver's side of a run. -/
theorem drv_run (n : ℕ) :
    (run pf calls r mem i n).drv =
      Sys.run pf calls r (fun k => (run pf calls r mem i k).cycle (i k)) n := by
  induction n with
  | zero => rfl
  | succ n ih => rw [run_succ, step, ih, Sys.run_succ]

theorem inv_drv (n : ℕ) : Sys.Inv pf calls (run pf calls r mem i n).drv := by
  rw [drv_run]
  exact Sys.inv_run pf calls r _ n

theorem writeInv_run (n : ℕ) : (run pf calls r mem i n).bench.WriteInv := by
  induction n with
  | zero => exact ⟨(fun h => by cases h), (fun h => by cases h)⟩
  | succ n ih =>
    have h := ih.step ((run pf calls r mem i n).benchIn (i n))
    exact ⟨h.hwrite, h.rDone⟩

variable (hl : Legal (run pf calls r mem i) i)
include hl

theorem settles_run (n : ℕ) : (run pf calls r mem i n).bench.Settles := by
  induction n with
  | zero => exact ⟨(fun h => by cases h), (fun h => by cases h), fun _ => ⟨rfl, rfl⟩⟩
  | succ n ih =>
    have h := ih.step (x := (run pf calls r mem i n).benchIn (i n)) (hl.writes n)
    exact ⟨h.writeData, h.advance, h.ended⟩

theorem quiescent_run {n : ℕ} (hs : (run pf calls r mem i n).drv.accel.fsm.state = .idle) :
    (run pf calls r mem i n).bench.Quiescent :=
  (settles_run hl n).quiescent (writeInv_run n) hs

/-- While the accelerator rests, only the other masters change the memory. -/
theorem mem_step_idle {n : ℕ} (hs : (run pf calls r mem i n).drv.accel.fsm.state = .idle) :
    (run pf calls r mem i (n + 1)).slave.mem = (i n).others (run pf calls r mem i n).slave.mem := by
  have hv := (quiescent_run hl hs).apValid
  have hp : (run pf calls r mem i n).slave.writePending = false := by
    rw [Slave.writePending, show (run pf calls r mem i n).slave.apValid = false from hv,
      Bool.false_and]
  have hm : ((run pf calls r mem i n).stepSlave (i n)).mem =
      (run pf calls r mem i n).slave.mem := by
    rw [stepSlave, Slave.step, hp]
    split <;> rfl
  rw [run_succ, step, hm]

/-! ## One call -/

omit hl in
/-- A stretch of a run without other masters is a run of accelerator and slave. -/
theorem bench_stretch {m k : ℕ} (hq : ∀ j < k, ∀ x, (i (m + j)).others x = x) :
    (run pf calls r mem i (m + k)).bench =
      trace Bench.step (run pf calls r mem i m).bench
        (fun j => (run pf calls r mem i (m + j)).benchIn (i (m + j))) k := by
  induction k with
  | zero => rfl
  | succ k ih =>
    rw [trace_succ, ← ih fun j hj => hq j (Nat.lt_succ_of_lt hj),
      ← bench_step _ (hq k k.lt_succ_self)]
    rfl

/-- The inputs of `k` cycles from cycle `m` on, and then no access and no stall. -/
def inputs (s : ℕ → Soc) (i : ℕ → SocIn) (m k : ℕ) (j : ℕ) : BenchIn :=
  if j < k then (s (m + j)).benchIn (i (m + j)) else ⟨ApbReq.none, true, 0⟩

/-- The cycles of a poll loop, as a run of accelerator and slave. -/
theorem trace_inputs {m k j : ℕ} (hm : (run pf calls r mem i m).Starts (i m))
    (hp : ∀ t, m < t → t < m + k → (run pf calls r mem i t).drv.Polling) (hj : j ≤ k) :
    trace Bench.step (run pf calls r mem i m).bench (inputs (run pf calls r mem i) i m k) j =
      (run pf calls r mem i (m + j)).bench := by
  rw [bench_stretch fun l hlj => ?_]
  · exact trace_congr fun l hlj => if_pos (hlj.trans_le hj)
  · refine hl.others (m + l) ?_
    rcases Nat.eq_zero_or_pos l with rfl | hl0
    · exact .inl hm
    · exact .inr (hp _ (by omega) (by omega))

omit hl in
theorem startRun_inputs {m k : ℕ} (hk : 0 < k) (hm : (run pf calls r mem i m).Starts (i m))
    (hp : ∀ t, m < t → t < m + k → (run pf calls r mem i t).drv.Polling) :
    StartRun (inputs (run pf calls r mem i) i m k) where
  start := by
    rw [inputs, if_pos hk]
    exact hm
  quiet n := by
    rw [inputs]
    split
    · exact (hp _ (by omega) (by omega)).isWrite_eq _
    · rfl

theorem writeEdgeOk_inputs {m k : ℕ} (hm : (run pf calls r mem i m).Starts (i m))
    (hp : ∀ t, m < t → t < m + k → (run pf calls r mem i t).drv.Polling) (n : ℕ) :
    Bench.WriteEdgeOk
      (trace Bench.step (run pf calls r mem i m).bench (inputs (run pf calls r mem i) i m k) n)
      (inputs (run pf calls r mem i) i m k n) := by
  intro _ hw
  by_cases hn : n < k
  · rw [trace_inputs hl hm hp hn.le] at hw
    rw [inputs, if_pos hn]
    exact hl.writes _ hw
  · rw [inputs, if_neg hn]

/-- When the poll loop reads DONE, everything is stored. -/
theorem stored_of_rDone {n : ℕ} (hd : (run pf calls r mem i n).drv.accel.fsm.rDone = true) :
    (run pf calls r mem i n).bench.Stored := by
  have hw : (run pf calls r mem i n).bench.WriteInv := writeInv_run n
  have hv := (quiescent_run hl (hw.rDone hd)).apValid
  refine ⟨hd, ?_⟩
  rw [Bench.outstandingWrite_of_rDone hw hd, Slave.writePending, hv, Bool.false_and]

omit hl in
theorem rDone_of_exits {n : ℕ} (hx : (run pf calls r mem i n).Exits (i n)) :
    (run pf calls r mem i n).drv.accel.fsm.rDone = true := by
  rw [← Sys.readsDone_eq]
  exact hx.2.2

omit hl in
/-- The exit of a poll loop finds the accelerator idle. -/
theorem idle_of_exits {n : ℕ} (hx : (run pf calls r mem i n).Exits (i n)) :
    (run pf calls r mem i n).drv.accel.fsm.state = .idle :=
  (writeInv_run n).rDone (rDone_of_exits hx)

/-- **One call**: at the end of its poll loop the memory is what the call is for, computed from
the memory at its START. -/
theorem mem_of_exits {n : ℕ} (hx : (run pf calls r mem i n).Exits (i n))
    (hv : (calls (run pf calls r mem i n).drv.call).config.Valid) :
    ∃ m < n, (run pf calls r mem i m).Starts (i m) ∧
      (run pf calls r mem i m).drv.call = (run pf calls r mem i n).drv.call ∧
      (∀ t, m < t → t ≤ n → (run pf calls r mem i t).drv.Polling) ∧
      (run pf calls r mem i n).slave.mem =
        (calls (run pf calls r mem i n).drv.call).result (run pf calls r mem i m).slave.mem := by
  -- the START of this call, and the poll loop from there on
  obtain ⟨m, hmn, hstart, hcall, hall⟩ := Sys.polling_since pf calls r
    (fun k => (run pf calls r mem i k).cycle (i k)) n (drv_run n ▸ hx.2.1)
  have hprog := Sys.run_arguments pf calls r _ hstart
  simp only [← drv_run] at hstart hcall hall hprog
  refine ⟨m, hmn, hstart, hcall, hall, ?_⟩
  rw [hcall] at hprog
  obtain ⟨k, rfl⟩ := Nat.exists_eq_add_of_lt hmn
  have hp : ∀ t, m < t → t < m + (k + 1) → (run pf calls r mem i t).drv.Polling :=
    fun t ht hlt => hall t ht (by omega)
  have htrace := trace_inputs hl hstart hp le_rfl
  have hidle : (run pf calls r mem i m).drv.accel.fsm.state = .idle :=
    ((inv_drv m).starts hstart).1
  have hst := stored_of_rDone hl (rDone_of_exits hx)
  rw [Nat.add_assoc, ← htrace] at hst
  obtain ⟨l, hfin, hmem⟩ := Bench.mem_of_stored (quiescent_run hl hidle)
    (startRun_inputs k.succ_pos hstart hp) (writeEdgeOk_inputs hl hstart hp) hst
  -- the finished program has stored every reference output
  have hc : (run pf calls r mem i m).bench.dut.cfg.Valid := hprog.valid hv
  have hinv := (Seq.inv_start (b := (run pf calls r mem i m).bench) hc).iterate hc l
  rw [Seq.Inv, hfin] at hinv
  rw [htrace] at hmem
  exact (hmem.trans hinv).trans (hprog.result_eq _)

/-! ## Whole runs -/

/-- Through a poll loop the abstract machine stands still. -/
theorem spec_polling {m n : ℕ} (hmn : m < n) (hm : (run pf calls r mem i m).Starts (i m))
    (hp : ∀ t, m < t → t ≤ n → (run pf calls r mem i t).drv.Polling)
    (hx : ∀ t, m < t → t < n → ¬ (run pf calls r mem i t).Exits (i t)) :
    spec calls (run pf calls r mem i) i mem n = spec calls (run pf calls r mem i) i mem m := by
  induction n, hmn using Nat.le_induction with
  | base =>
    have hne : ¬ (run pf calls r mem i m).Exits (i m) := fun he => he.2.1.not_starts _ hm
    rw [spec, if_neg hne, hl.others m (.inl hm)]
  | succ n hmn ih =>
    rw [spec, if_neg (hx n hmn n.lt_succ_self), hl.others n (.inr (hp n hmn n.le_succ))]
    exact ih (fun t ht htn => hp t ht (by omega)) (fun t ht htn => hx t ht (by omega))

/-- **Every call is one atomic step on the memory**: in every cycle outside the poll loops the
memory is the one of the abstract machine. -/
theorem mem_eq_spec (n : ℕ)
    (hv : ∀ t < n, (run pf calls r mem i t).Exits (i t) →
      (calls (run pf calls r mem i t).drv.call).config.Valid)
    (hp : ¬ (run pf calls r mem i n).drv.Polling) :
    (run pf calls r mem i n).slave.mem = spec calls (run pf calls r mem i) i mem n := by
  induction n using Nat.strongRecOn with
  | ind n ih =>
    cases n with
    | zero => rfl
    | succ n =>
      by_cases hpoll : (run pf calls r mem i n).drv.Polling
      · -- the poll loop has exited, with the result of its call
        have hx : (run pf calls r mem i n).Exits (i n) := by
          by_contra hx
          exact hp (hpoll.step hx).1
        obtain ⟨m, hmn, hstart, -, hall, hmem⟩ := mem_of_exits hl hx (hv n n.lt_succ_self hx)
        have hone : ∀ t, m < t → t < n → ¬ (run pf calls r mem i t).Exits (i t) :=
          fun t ht htn he => (inv_drv t).not_polling_of_exits he (hall (t + 1) (by omega) htn)
        have hm := ih m (by omega) (fun t ht => hv t (by omega)) fun hp' => hp'.not_starts _ hstart
        rw [spec, if_pos hx, spec_polling hl hmn hstart hall hone, ← hm, ← hmem,
          mem_step_idle hl (idle_of_exits hx), hl.others n (.inr hpoll)]
      · have hne : ¬ (run pf calls r mem i n).Exits (i n) := fun hx => hpoll hx.2.1
        have hinv : Sys.Inv pf calls (run pf calls r mem i n).drv := inv_drv n
        have hidle := hinv.polling_or_idle.resolve_left hpoll
        rw [spec, if_neg hne, mem_step_idle hl hidle,
          ih n n.lt_succ_self (fun t ht => hv t (by omega)) hpoll]

omit hl in
/-- In cycle 41 the first of these calls has returned and the second START is written. -/
theorem mem_eq_spec_smallCall :
    (run true (fun _ => smallCall) .blank (fun _ => 1) steady 41).slave.mem =
      spec (fun _ => smallCall) (run true (fun _ => smallCall) .blank (fun _ => 1) steady) steady
        (fun _ => 1) 41 :=
  mem_eq_spec (legal_steady _) 41 (fun _ _ _ => valid_smallCall) (by
    unfold Sys.Polling
    decide +kernel)

/-! ## Every call returns -/

omit hl in
/-- A poll loop without an exit would go on for ever. -/
theorem polling_forever {n : ℕ} (hp : (run pf calls r mem i n).drv.Polling)
    (hx : ∀ m, n ≤ m → (run pf calls r mem i m).drv.call = (run pf calls r mem i n).drv.call →
      ¬ (run pf calls r mem i m).Exits (i m)) (d : ℕ) :
    (run pf calls r mem i (n + d)).drv.Polling ∧
      (run pf calls r mem i (n + d)).drv.call = (run pf calls r mem i n).drv.call := by
  induction d with
  | zero => exact ⟨hp, rfl⟩
  | succ d ih =>
    obtain ⟨hp', hcall⟩ : (run pf calls r mem i (n + d + 1)).drv.Polling ∧
        (run pf calls r mem i (n + d + 1)).drv.call = (run pf calls r mem i (n + d)).drv.call :=
      ih.1.step (hx (n + d) (by omega) ih.2)
    exact ⟨hp', hcall.trans ih.2⟩

omit hl in
/-- Beside a poll loop an idle accelerator stays idle. -/
theorem idle_of_polling {n : ℕ} (hp : ∀ t, n ≤ t → (run pf calls r mem i t).drv.Polling)
    (hs : (run pf calls r mem i n).drv.accel.fsm.state = .idle) (d : ℕ) :
    (run pf calls r mem i (n + d)).drv.accel.fsm.state = .idle := by
  induction d with
  | zero => exact hs
  | succ d ih =>
    have hno := ApbReq.startPulse_of_not_write
      ((hp (n + d) (Nat.le_add_right n d)).isWrite_eq
        ((run pf calls r mem i (n + d)).cycle (i (n + d))))
    have hfsm : (run pf calls r mem i (n + d + 1)).drv.accel.fsm = _ :=
      Sys.step_fsm_of_not_starts hno
    rw [← Nat.add_assoc, hfsm]
    exact (Fsm.step_idle ih _ _ _).1

/-- **A run of the accelerator ends** while the driver polls for it. -/
theorem exists_idle {m : ℕ} (hm : (run pf calls r mem i m).Starts (i m))
    (hp : ∀ t, m < t → (run pf calls r mem i t).drv.Polling)
    (hs : (run pf calls r mem i m).drv.accel.cfg.Shape)
    (hw : (run pf calls r mem i m).drv.accel.cfg.WeightLoadsEnd)
    (hready : ∀ n, ∃ m, n ≤ m ∧ (i m).hready = true) :
    ∃ q, m < q ∧ (run pf calls r mem i q).drv.accel.fsm.state = .idle := by
  -- from the START on, accelerator and slave are on their own
  have hothers : ∀ k x, (i (m + k)).others x = x := fun k => hl.others (m + k) <| by
    rcases Nat.eq_zero_or_pos k with rfl | hk
    · exact .inl hm
    · exact .inr (hp _ (by omega))
  have htrace : ∀ k, (run pf calls r mem i (m + k)).bench = _ :=
    fun k => bench_stretch fun j _ => hothers j
  set j := fun k => (run pf calls r mem i (m + k)).benchIn (i (m + k))
  have hi : StartRun j := ⟨hm, fun k => (hp (m + (k + 1)) (by omega)).isWrite_eq _⟩
  have hok : ∀ k, Bench.WriteEdgeOk (trace Bench.step (run pf calls r mem i m).bench j k) (j k) :=
    fun k _ hwp => hl.writes (m + k) (by rwa [← htrace] at hwp)
  have hfin : ∀ k, ∃ l, k ≤ l ∧ (j l).hready = true := fun k => by
    obtain ⟨l, hkl, hr⟩ := hready (m + k)
    obtain ⟨d, rfl⟩ := Nat.exists_eq_add_of_le hkl
    exact ⟨k + d, Nat.le_add_right k d, by rwa [Nat.add_assoc] at hr⟩
  obtain ⟨k, hk⟩ := Seq.exists_finished (a := Seq.start (run pf calls r mem i m).bench) hs hw
    ⟨hs.cOut, Config.wOut_pos _⟩
  obtain ⟨q, hq⟩ := Bench.exists_stored (quiescent_run hl ((inv_drv m).starts hm).1) hi hok hfin hk
  rw [← htrace] at hq
  exact ⟨m + (q + 1), by omega, (writeInv_run _).rDone hq.1⟩

/-- **A poll loop exits.** -/
theorem exists_exit {n : ℕ} (hp : (run pf calls r mem i n).drv.Polling)
    (hs : (calls (run pf calls r mem i n).drv.call).config.Shape)
    (hw : (calls (run pf calls r mem i n).drv.call).config.WeightLoadsEnd)
    (haccess : ∀ n, ∃ m, n ≤ m ∧ (i m).access = true)
    (hready : ∀ n, ∃ m, n ≤ m ∧ (i m).hready = true) :
    ∃ m, n ≤ m ∧ (run pf calls r mem i m).Exits (i m) ∧
      (run pf calls r mem i m).drv.call = (run pf calls r mem i n).drv.call := by
  by_contra hnone
  have hforever := polling_forever hp fun m hnm hcall hx => hnone ⟨m, hnm, hx, hcall⟩
  obtain ⟨m, hmn, hstart, hcall, hall⟩ := Sys.polling_since pf calls r
    (fun k => (run pf calls r mem i k).cycle (i k)) n (drv_run n ▸ hp)
  have hprog := Sys.run_arguments pf calls r _ hstart
  simp only [← drv_run] at hstart hcall hall hprog
  rw [hcall] at hprog
  have hpoll : ∀ t, m < t → (run pf calls r mem i t).drv.Polling := fun t ht => by
    rcases Nat.le_total t n with htn | htn
    · exact hall t ht htn
    · obtain ⟨d, rfl⟩ := Nat.exists_eq_add_of_le htn
      exact (hforever d).1
  obtain ⟨q, hmq, hq⟩ :=
    exists_idle hl hstart hpoll (hprog.shape hs) (hprog.weightLoadsEnd hw) hready
  -- the first access after the end of the run finds DONE
  obtain ⟨l, hle, hx⟩ := haccess (q + n)
  obtain ⟨d, rfl⟩ := Nat.exists_eq_add_of_le ((Nat.le_add_right q n).trans hle)
  have hidle := idle_of_polling (fun t ht => hpoll t (by omega)) hq d
  obtain ⟨e, he⟩ := Nat.exists_eq_add_of_le (show n ≤ q + d by omega)
  refine hnone ⟨q + d, by omega, ?_, by rw [he]; exact (hforever e).2⟩
  have hexit := Sys.exits_of_idle pf calls r (fun k => (run pf calls r mem i k).cycle (i k))
    (n := q + d) (by rw [← drv_run]; exact hpoll _ (by omega)) (by rw [← drv_run]; exact hidle) hx
  rwa [← drv_run] at hexit

/-- Call `k` has just begun. -/
def Begins (pf : Bool) (calls : ℕ → Conv1dArgs) (s : Soc) (k : ℕ) : Prop :=
  s.drv.call = k ∧ s.drv.todo = accelConv1d pf (calls k)

/-- **Every call returns**: when accesses and ready cycles never stop coming, the poll loop of each
call exits. -/
theorem call_returns (hs : ∀ k, (calls k).config.Shape) (hw : ∀ k, (calls k).config.WeightLoadsEnd)
    (haccess : ∀ n, ∃ m, n ≤ m ∧ (i m).access = true)
    (hready : ∀ n, ∃ m, n ≤ m ∧ (i m).hready = true) (k : ℕ) :
    ∃ n, (run pf calls r mem i n).drv.call = k ∧ (run pf calls r mem i n).Exits (i n) := by
  have haccess' : ∀ n, ∃ m, n ≤ m ∧ ((run pf calls r mem i m).cycle (i m)).access = true := haccess
  -- a call that has begun gets to its poll loop, and from there to the exit
  have hreturn : ∀ k n, Begins pf calls (run pf calls r mem i n) k →
      ∃ m, (run pf calls r mem i m).drv.call = k ∧ (run pf calls r mem i m).Exits (i m) := by
    rintro k n ⟨rfl, htodo⟩
    rw [drv_run] at htodo
    obtain ⟨m, -, hpoll, hcall⟩ := Sys.exists_polling pf calls haccess' htodo
      (by simp [accelConv1d])
    rw [← drv_run, ← drv_run] at hcall
    rw [← drv_run] at hpoll
    obtain ⟨l, -, hx, hcall'⟩ := exists_exit hl hpoll (hs _) (hw _) haccess hready
    exact ⟨l, hcall'.trans hcall, hx⟩
  have hbegin : ∃ n, Begins pf calls (run pf calls r mem i n) k := by
    induction k with
    | zero => exact ⟨0, rfl, rfl⟩
    | succ k ih =>
      obtain ⟨n, hn⟩ := ih
      obtain ⟨m, hcall, hx⟩ := hreturn k n hn
      obtain ⟨hmem, hkeep⟩ := (inv_drv m).not_mem_of_exits hx
      have hsucc : (run pf calls r mem i (m + 1)).drv =
          (run pf calls r mem i m).drv.step pf calls ((run pf calls r mem i m).cycle (i m)) := rfl
      rw [← hsucc, drv_run] at hmem hkeep
      obtain ⟨l, -, hl', htodo⟩ := Sys.exists_next_call pf calls haccess' rfl hmem
      rw [hkeep, hcall, ← drv_run] at hl' htodo
      exact ⟨l, hl', htodo⟩
  obtain ⟨n, hn⟩ := hbegin
  exact hreturn k n hn

omit hl in
theorem call_returns_smallCall :
    ∃ n, (run true (fun _ => smallCall) .blank (fun _ => 1) steady n).drv.call = 7 ∧
      (run true (fun _ => smallCall) .blank (fun _ => 1) steady n).Exits (steady n) :=
  call_returns (legal_steady _) (fun _ => valid_smallCall.shape) (fun _ => by decide)
    (fun n => ⟨n, le_rfl, rfl⟩) (fun n => ⟨n, le_rfl, rfl⟩) 7

end Soc

end KwsSoc.Conv1dAccel
