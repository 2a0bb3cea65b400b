import KwsSoc.Accel.Refinement

/-! # What the DONE bit promises

`S_ADVANCE` and `S_DONE` do not look at `hready`, so `r_done` can be set while the data phase of
the last output write is still stalled. `done_iff` says exactly when that happens: DONE means
"all output writes have landed" in every cycle of a run if and only if the slave is ready in
every cycle in which the FSM is in `S_DONE` with a write in its data phase
(`Bench.DoneEdgeOk`). A run in which it is not ready
there is `done_before_stored`. -/

namespace KwsSoc.Conv1dAccel

open SyncMachine

namespace Bench

/-- The slave is ready if the FSM is in `S_DONE` with a write in its data phase. -/
def DoneEdgeOk (b : Bench) (x : BenchIn) : Prop :=
  b.fsm.state = .done → b.slave.writePending = true → x.hready = true

/-- **Invariant of the write handshake.** `hwrite` is high in `S_WRITE_DATA` only, and `r_done`
in `S_IDLE` only. -/
structure WriteInv (b : Bench) : Prop where
  hwrite : b.fsm.hwrite = true → b.fsm.state = .writeData
  rDone : b.fsm.rDone = true → b.fsm.state = .idle

/-- DONE means that no output write is outstanding. -/
def DoneMeansStored (b : Bench) : Prop := b.fsm.rDone = true → b.outstandingWrite = false

/-! ## The invariant -/

/-- Only `S_WRITE_ADDR` raises `hwrite`, and it moves to `S_WRITE_DATA`, which clears it when it is
left. -/
theorem hwrite_step {c : Config} {r : Fsm} {st hr : Bool} {d : BitVec 32}
    (h : r.hwrite = true → r.state = .writeData) :
    (r.step c st hr d).hwrite = true → (r.step c st hr d).state = .writeData := by
  by_cases hs : r.state = .writeAddr
  · rw [Fsm.step_of_writeAddr hs]
    exact fun _ => rfl
  · intro hw
    have hd : r.state = .writeData := h ((Fsm.step_keeps c st hr d r).hwrite hs hw)
    rw [Fsm.step_of_writeData hd, Fsm.sWriteData] at hw ⊢
    split_ifs at hw ⊢
    exact hd

/-- Only `S_DONE` raises `r_done`, and a START clears it. -/
theorem rDone_step {c : Config} {r : Fsm} {st hr : Bool} {d : BitVec 32}
    (h : r.rDone = true → r.state = .idle) :
    (r.step c st hr d).rDone = true →
      (r.step c st hr d).state = .idle ∧ (r.state = .idle ∧ r.rDone = true ∨ r.state = .done) := by
  intro hrd
  by_cases hi : r.state = .idle
  · rw [Fsm.step_of_idle hi, Fsm.sIdle] at hrd ⊢
    split_ifs at hrd ⊢
    exact ⟨hi, Or.inl ⟨hi, hrd⟩⟩
  by_cases hd : r.state = .done
  · rw [Fsm.step_of_done hd]
    exact ⟨rfl, Or.inr hd⟩
  · rw [(Fsm.step_keeps c st hr d r).rDone hi hd] at hrd
    exact absurd (h hrd) hi

/-- The invariant survives every edge. -/
theorem WriteInv.step {b : Bench} (h : WriteInv b) (x : BenchIn) : WriteInv (b.step x) :=
  ⟨hwrite_step h.hwrite, fun hd => (rDone_step h.rDone hd).1⟩

/-- Outside `S_WRITE_DATA` an edge leaves no write pending that was not pending before, and a
ready one leaves none. -/
theorem writePending_step {b : Bench} (h : WriteInv b) {x : BenchIn}
    (hs : b.fsm.state ≠ .writeData) :
    (b.step x).slave.writePending = (!x.hready && b.slave.writePending) := by
  cases hr : x.hready with
  | true =>
    have hw : b.fsm.hwrite = false := by
      cases hwr : b.fsm.hwrite
      · rfl
      · exact absurd (h.hwrite hwr) hs
    simp [step_slave_ready b hr, Slave.writePending, hw]
  | false => simp [step_slave_stall b hr]

/-- In a state where DONE is set, the outstanding writes are the pending ones. -/
theorem outstandingWrite_of_rDone {b : Bench} (h : WriteInv b) (hd : b.fsm.rDone = true) :
    b.outstandingWrite = b.slave.writePending := by
  have hw : b.dut.fsm.hwrite = false := by
    cases hwr : b.dut.fsm.hwrite
    · rfl
    · have hs := h.hwrite hwr
      rw [h.rDone hd] at hs
      cases hs
  simp [outstandingWrite, hw]

/-- **Step lemma for DONE**: an edge keeps "DONE means stored" if the slave is ready in
`S_DONE`. -/
theorem DoneMeansStored.step {b : Bench} {x : BenchIn} (hi : WriteInv b)
    (hd : DoneMeansStored b) (hok : DoneEdgeOk b x) : DoneMeansStored (b.step x) := by
  intro hrd
  rw [outstandingWrite_of_rDone (hi.step x) hrd]
  rcases (rDone_step hi.rDone hrd).2 with ⟨hs, hb⟩ | hs
  · have hp := hd hb
    rw [outstandingWrite_of_rDone hi hb] at hp
    rw [writePending_step hi (by rw [hs]; decide), hp, Bool.and_false]
  · rw [writePending_step hi (by rw [hs]; decide)]
    cases hp : b.slave.writePending with
    | false => rw [Bool.and_false]
    | true => simp [hok hs hp]

/-- Conversely, an edge out of `S_DONE` that keeps "DONE means stored" was ready. -/
theorem doneEdgeOk_of_step {b : Bench} {x : BenchIn} (hi : WriteInv b)
    (hd : DoneMeansStored (b.step x)) : DoneEdgeOk b x := by
  intro hs hp
  have hrd : (b.step x).fsm.rDone = true := by rw [step_fsm, Fsm.step_of_done hs]; rfl
  have h := hd hrd
  rw [outstandingWrite_of_rDone (hi.step x) hrd, writePending_step hi (by rw [hs]; decide), hp] at h
  simpa using h

/-! ## Runs from reset -/

theorem writeInv_trace (r : Fsm) (mem : Mem) (i : ℕ → BenchIn) (n : ℕ) :
    WriteInv (trace step (powerOn r mem) i n) :=
  trace_invariant WriteInv ⟨by simp [powerOn, Accel.reset, Fsm.reset],
    by simp [powerOn, Accel.reset, Fsm.reset]⟩ (fun n h => h.step (i n)) n

/-- **What DONE promises.** In a run from power-on, with any register accesses and any stalls,
"DONE means stored" holds in every cycle if and only if the slave is ready in every cycle in which
the FSM is in `S_DONE` with a write in its data phase. -/
theorem done_iff (r : Fsm) (mem : Mem) (i : ℕ → BenchIn) :
    (∀ n, DoneMeansStored (trace step (powerOn r mem) i n)) ↔
      ∀ n, DoneEdgeOk (trace step (powerOn r mem) i n) (i n) := by
  constructor
  · intro h n
    exact doneEdgeOk_of_step (writeInv_trace r mem i n) (h (n + 1))
  · intro h n
    refine trace_invariant DoneMeansStored ?_ (fun n hn => ?_) n
    · intro hd
      simp [powerOn, Accel.reset, Fsm.reset] at hd
    · exact hn.step (writeInv_trace r mem i n) (h n)

/-- A legal slave that stalls the last output write for two cycles: the run from power-on, with
every register at its reset value, sets DONE in cycle 18 while memory still holds the old byte. -/
theorem done_before_stored :
    let b := powerOn Fsm.blank (fun _ => 2)
    let i := startWithStalls [16, 17]
    LegalStalls b i ∧ ¬ (∀ n, DoneMeansStored (trace step b i n)) ∧
      (trace step b i 18).fsm.rDone = true ∧
      (trace step b i 18).slave.mem 0 ≠ (trace step b i 18).effMem 0 := by
  intro b i
  have hrun : (trace step b i 18).fsm.rDone = true ∧
      (trace step b i 18).outstandingWrite = true ∧
      (trace step b i 18).slave.mem 0 ≠ (trace step b i 18).effMem 0 := by decide +kernel
  refine ⟨fun n hn => ?_, fun h => ?_, hrun.1, hrun.2.2⟩
  · have hmem := mem_of_stalled hn
    simp only [List.mem_cons, List.not_mem_nil, or_false] at hmem
    rcases hmem with rfl | rfl <;> decide +kernel
  · have h18 := h 18 hrun.1
    rw [hrun.2.1] at h18
    cases h18

end Bench

end KwsSoc.Conv1dAccel
