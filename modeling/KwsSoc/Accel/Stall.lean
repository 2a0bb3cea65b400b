import KwsSoc.Accel.Done

/-! # Stalls and the result of a run

Two runs from the same state, one on an always-ready slave and one on a slave that stalls: as long
as no stalled write is overtaken in `S_WRITE_ADDR` (`WriteEdgeOk`), both follow the same program,
so both end with the same memory (`stall_invariance`). `S_WRITE_ADDR` itself does not look at
`hready`; `stalled_write_lost` is a run in which it replaces the data of a stalled write. -/

namespace KwsSoc.Conv1dAccel

open SyncMachine

namespace Bench

/-- The run has ended and the data phase of its last write is over. -/
def Stored (b : Bench) : Prop := b.fsm.rDone = true ∧ b.outstandingWrite = false

/-! ## Runs from a START and the program -/

section Run

variable {b : Bench} {i : ℕ → BenchIn}

/-- The edges after a START meet `EdgeOk` when they meet `WriteEdgeOk`. -/
theorem edgeOk_of_startRun (hi : StartRun i)
    (hok : ∀ n, WriteEdgeOk (trace step b i n) (i n)) (n : ℕ) :
    EdgeOk (trace step (b.step (i 0)) (fun k => i (1 + k)) n) (i (1 + n)) := by
  have h := hok (1 + n)
  rw [trace_add] at h
  exact ⟨by rw [Nat.add_comm]; exact hi.quiet n, h⟩

theorem trace_one_add (b : Bench) (i : ℕ → BenchIn) (n : ℕ) :
    trace step b i (n + 1) = trace step (b.step (i 0)) (fun k => i (1 + k)) n := by
  rw [Nat.add_comm, trace_add]
  rfl

/-- Every cycle of a run from a START is related to an iterate of the program. -/
theorem exists_rel (hq : b.Quiescent) (hi : StartRun i)
    (hok : ∀ n, WriteEdgeOk (trace step b i n) (i n)) (n : ℕ) :
    ∃ k, Rel b.dut.cfg ((Seq.step b.dut.cfg)^[k] (Seq.start b)) (trace step b i (n + 1)) := by
  rw [trace_one_add]
  exact (stutterSim b.dut.cfg).exists_iterate (rel_start hq hi.start)
    (edgeOk_of_startRun hi hok) n

/-- Every iterate of the program is related to a cycle of a run that never stops being ready. -/
theorem exists_cycle (hq : b.Quiescent) (hi : StartRun i)
    (hok : ∀ n, WriteEdgeOk (trace step b i n) (i n))
    (hfin : ∀ n, ∃ m, n ≤ m ∧ (i m).hready = true) (k : ℕ) :
    ∃ n, Rel b.dut.cfg ((Seq.step b.dut.cfg)^[k] (Seq.start b)) (trace step b i (n + 1)) := by
  simp only [trace_one_add]
  refine (stutterSim b.dut.cfg).exists_trace (rel_start hq hi.start) (edgeOk_of_startRun hi hok)
    (fun n => ?_) k
  obtain ⟨m, hnm, hm⟩ := hfin (1 + n)
  obtain ⟨d, rfl⟩ := Nat.exists_eq_add_of_le hnm
  exact ⟨n + d, Nat.le_add_right n d, by rw [← Nat.add_assoc]; exact hm⟩

/-- The DONE bit of a related state says that the program has finished. -/
theorem Rel.finished {c : Config} {a : Seq} (h : Rel c a b) (hd : b.fsm.rDone = true) :
    a.phase = .finished ∧ b.effMem = a.mem := by
  have hsh : ∀ {a' : Seq}, Shared c a' b → False := fun hsh => by
    rw [hsh.rDone] at hd
    cases hd
  cases hs : b.fsm.state <;> rw [Rel, hs] at h
  case idle => exact ⟨h.1, h.2.2.2.2⟩
  case init => rw [h.2.2.1] at hd; cases hd
  case done => rw [h.2.2.1] at hd; cases hd
  all_goals exact (hsh h.2.1).elim

/-- A finished program is related to `S_DONE` and `S_IDLE` only. -/
theorem Rel.state_of_finished {c : Config} {a : Seq} (h : Rel c a b) (hp : a.phase = .finished) :
    b.fsm.state = .done ∨ (b.fsm.state = .idle ∧ b.fsm.rDone = true) := by
  cases hs : b.fsm.state <;> rw [Rel, hs] at h
  case idle => exact Or.inr ⟨rfl, h.2.2.1⟩
  case done => exact Or.inl rfl
  all_goals
    have := h.1.symm.trans hp
    cases this

/-- Two finished iterates of the program are the same. -/
theorem iterate_finished_unique {c : Config} {a : Seq} {k l : ℕ}
    (hk : ((Seq.step c)^[k] a).phase = .finished) (hl : ((Seq.step c)^[l] a).phase = .finished) :
    (Seq.step c)^[k] a = (Seq.step c)^[l] a := by
  rcases Nat.le_total k l with h | h
  · obtain ⟨d, rfl⟩ := Nat.exists_eq_add_of_le' h
    rw [Function.iterate_add_apply, Seq.iterate_step_finished c hk]
  · obtain ⟨d, rfl⟩ := Nat.exists_eq_add_of_le' h
    rw [Function.iterate_add_apply, Seq.iterate_step_finished c hl]

/-- The write handshake invariant in a run from a quiescent state. -/
theorem Quiescent.writeInv_trace (hq : b.Quiescent) (i : ℕ → BenchIn) (n : ℕ) :
    WriteInv (trace step b i n) :=
  trace_invariant WriteInv ⟨by simp [hq.hwrite], fun _ => hq.state⟩ (fun n h => h.step (i n)) n

/-- A stored result is the effective memory. -/
theorem Stored.mem_eq (h : b.Stored) : b.slave.mem = b.effMem := by
  have hw : b.slave.writePending = false := by
    have := h.2
    rw [outstandingWrite, Bool.or_eq_false_iff] at this
    exact this.1
  simp [effMem, Slave.settled, hw]

/-- A stored result is the memory of the finished program. -/
theorem mem_of_stored (hq : b.Quiescent) (hi : StartRun i)
    (hok : ∀ n, WriteEdgeOk (trace step b i n) (i n)) {n : ℕ}
    (h : Stored (trace step b i (n + 1))) :
    ∃ k, ((Seq.step b.dut.cfg)^[k] (Seq.start b)).phase = .finished ∧
      (trace step b i (n + 1)).slave.mem = ((Seq.step b.dut.cfg)^[k] (Seq.start b)).mem := by
  obtain ⟨k, hk⟩ := exists_rel hq hi hok n
  obtain ⟨hp, hm⟩ := hk.finished h.1
  exact ⟨k, hp, h.mem_eq.trans hm⟩

/-- **A program that finishes is carried out**: a run that never stops being ready gets to a
state in which the result is stored. -/
theorem exists_stored (hq : b.Quiescent) (hi : StartRun i)
    (hok : ∀ n, WriteEdgeOk (trace step b i n) (i n))
    (hfin : ∀ n, ∃ m, n ≤ m ∧ (i m).hready = true) {k : ℕ}
    (hk : ((Seq.step b.dut.cfg)^[k] (Seq.start b)).phase = .finished) :
    ∃ n, Stored (trace step b i (n + 1)) := by
  set a := (Seq.step b.dut.cfg)^[k] (Seq.start b)
  have hfix : a.step b.dut.cfg = a := Seq.iterate_step_finished b.dut.cfg hk 1
  obtain ⟨n, hn⟩ := exists_cycle hq hi hok hfin k
  -- from cycle `n + 1` on the run stays related to the finished program
  have hstay : ∀ d, Rel b.dut.cfg a (trace step b i (n + 1 + d)) := by
    intro d
    induction d with
    | zero => exact hn
    | succ d ih =>
      have hq' : (i (n + 1 + d)).apb.isWrite = false := by
        rw [show n + 1 + d = n + d + 1 by omega]
        exact hi.quiet _
      rcases (stutterSim b.dut.cfg).edge _ _ _ ih ⟨hq', hok _⟩ with h | ⟨h, -, -⟩
      · rw [hfix] at h
        exact h
      · exact h
  -- after one more edge it is in `S_IDLE` with DONE set
  have hidle : ∀ d, (trace step b i (n + 1 + (d + 1))).fsm.state = .idle ∧
      (trace step b i (n + 1 + (d + 1))).fsm.rDone = true := by
    intro d
    rcases (hstay (d + 1)).state_of_finished hk with h | h
    · exfalso
      rw [← Nat.add_assoc, trace_succ, step_fsm] at h
      rcases (hstay d).state_of_finished hk with hs | ⟨hs, -⟩
      · simp [Fsm.step, hs, Fsm.sDone] at h
      · simp only [Fsm.step, hs, Fsm.sIdle] at h
        split at h <;> simp_all
    · exact h
  obtain ⟨m, hnm, hm⟩ := hfin (n + 2)
  obtain ⟨d, rfl⟩ := Nat.exists_eq_add_of_le hnm
  refine ⟨n + 2 + d, ?_⟩
  have hd := hidle d
  have hd' := hidle (d + 1)
  rw [show n + 1 + (d + 1) = n + 2 + d by omega] at hd
  rw [show n + 1 + (d + 1 + 1) = n + 2 + d + 1 by omega] at hd'
  refine ⟨hd'.2, ?_⟩
  rw [outstandingWrite_of_rDone (hq.writeInv_trace i _) hd'.2, trace_succ,
    writePending_step (hq.writeInv_trace i _) (by rw [hd.1]; decide), hm]
  rfl

/-- On an always-ready slave DONE means stored. -/
theorem stored_of_ready (hq : b.Quiescent) (hi : StartRun i) (hready : ∀ n, (i n).hready = true)
    {n : ℕ} (hd : (trace step b i (n + 1)).fsm.rDone = true) :
    Stored (trace step b i (n + 1)) := by
  refine ⟨hd, ?_⟩
  have h1 : DoneMeansStored (b.step (i 0)) := by
    intro h
    rw [step_fsm, Fsm.step, hq.state] at h
    simp [Fsm.sIdle, hi.start] at h
  have hall : ∀ m, DoneMeansStored (trace step b i (m + 1)) := by
    intro m
    induction m with
    | zero => exact h1
    | succ m ih => exact ih.step (hq.writeInv_trace i _) (fun _ _ => hready _)
  exact hall n hd

end Run

/-! ## Two runs -/

/-- **Stall invariance.** Let the always-ready run `j` reach DONE. Then a run `i` from the same
state whose stalls are finite, and in which the slave is ready in every cycle in which the FSM is
in `S_WRITE_ADDR` with a write in its data phase, ends too, and whenever its last write is over
its memory is the one of the always-ready run. -/
theorem stall_invariance {b : Bench} {i j : ℕ → BenchIn} {k : ℕ} (hq : b.Quiescent)
    (hi : StartRun i) (hj : StartRun j) (hready : ∀ n, (j n).hready = true)
    (hdone : (trace step b j (k + 1)).fsm.rDone = true)
    (hfin : ∀ n, ∃ m, n ≤ m ∧ (i m).hready = true)
    (hok : ∀ n, WriteEdgeOk (trace step b i n) (i n)) :
    (∃ n, Stored (trace step b i (n + 1))) ∧
      ∀ n, Stored (trace step b i (n + 1)) →
        (trace step b i (n + 1)).slave.mem = (trace step b j (k + 1)).slave.mem := by
  have hokj : ∀ n, WriteEdgeOk (trace step b j n) (j n) := fun n _ _ => hready n
  obtain ⟨l, hl, hml⟩ := mem_of_stored hq hj hokj (stored_of_ready hq hj hready hdone)
  refine ⟨exists_stored hq hi hok hfin hl, fun n hn => ?_⟩
  obtain ⟨k', hk', hmk'⟩ := mem_of_stored hq hi hok hn
  rw [hmk', hml, iterate_finished_unique hk' hl]

/-! ## A run whose stalls lose a write -/

/-- One channel, one tap, two positions: input `1, 2` at 0, weight 1 at `0x10`, bias 0 at `0x20`,
shift 0 at `0x30`, outputs at `0x40` and `0x41`. -/
def twoOutputs : Bench where
  dut := ⟨{ Config.reset with
    rWtAddr := 0x10, rBsAddr := 0x20, rShiftAddr := 0x30, rDstAddr := 0x40, rWIn := 2 }, .blank⟩
  slave := ⟨false, 0, false, 0, fun a => if a = 0 then 1 else if a = 1 then 2 else
    if a = 0x10 then 1 else 0⟩

theorem quiescent_twoOutputs : twoOutputs.Quiescent := ⟨rfl, rfl, rfl, rfl⟩

/-- A single stall of the first output write leaves the result alone. -/
theorem stall_invariance_twoOutputs :
    (∃ n, Stored (trace step twoOutputs (startWithStalls [18]) (n + 1))) ∧
      ∀ n, Stored (trace step twoOutputs (startWithStalls [18]) (n + 1)) →
        (trace step twoOutputs (startWithStalls [18]) (n + 1)).slave.mem =
          (trace step twoOutputs (startWithStalls []) (23 + 1)).slave.mem := by
  refine stall_invariance quiescent_twoOutputs (startRun_startWithStalls _)
    (startRun_startWithStalls _) (fun n => by simp [startWithStalls]) (by decide +kernel)
    (fun n => ⟨n + 19, by omega, by simp [startWithStalls]⟩) (fun n hs _ => ?_)
  by_contra hr
  have hn := mem_of_stalled (Bool.eq_false_iff.mpr hr)
  rw [List.mem_singleton] at hn
  subst hn
  exact absurd hs (by decide +kernel)

/-- A legal slave that stalls the first output write for three cycles: `S_WRITE_ADDR` replaces
its data, and the first output byte comes out as the second one. -/
theorem stalled_write_lost :
    let i := startWithStalls [18, 19, 20]
    let j := startWithStalls []
    twoOutputs.Quiescent ∧ StartRun i ∧ StartRun j ∧ LegalStalls twoOutputs i ∧
      (∀ n, (j n).hready = true) ∧ (∀ n, 21 ≤ n → (i n).hready = true) ∧
      Stored (trace step twoOutputs i 24) ∧ Stored (trace step twoOutputs j 24) ∧
      (trace step twoOutputs i 24).slave.mem 0x40 = 2 ∧
      (trace step twoOutputs j 24).slave.mem 0x40 = 1 := by
  intro i j
  refine ⟨quiescent_twoOutputs, startRun_startWithStalls _, startRun_startWithStalls _,
    fun n hn => ?_, fun n => by simp [j, startWithStalls], fun n hn => ?_,
    by unfold Stored; decide +kernel, by unfold Stored; decide +kernel, by decide +kernel,
    by decide +kernel⟩
  · have hmem := mem_of_stalled hn
    simp only [List.mem_cons, List.not_mem_nil, or_false] at hmem
    rcases hmem with rfl | rfl | rfl <;> decide +kernel
  · by_contra hr
    have hmem := mem_of_stalled (Bool.eq_false_iff.mpr hr)
    simp only [List.mem_cons, List.not_mem_nil, or_false] at hmem
    omega

end Bench

end KwsSoc.Conv1dAccel
