import KwsSoc.Accel.Reference

/-! # When a run of the accelerator ends

Every loop of the FSM leaves on an equality between a counter and a bound of another width. On an
always-ready slave all of them end but one: the byte loop over the weights counts in the 7 bits of
`buf_idx` towards `patch_bytes - 1`, so it never ends for a channel of more than 128 weights.
`terminates_iff` says which runs reach `S_DONE`, for every shape the buffers hold and all
addresses: those whose byte loop ends, and those that read all weights as words. The argument is
about the program (`Seq`), whose phases drop a rank, and the simulation carries it over. -/

namespace KwsSoc.Conv1dAccel

open SyncMachine

namespace Config

/-- The weight loads end: at most 128 weights a channel, or whole words at aligned addresses. -/
def WeightLoadsEnd (c : Config) : Prop := c.taps ≤ 128 ∨ 4 ∣ c.rWtAddr.toNat ∧ 4 ∣ c.taps

instance (c : Config) : Decidable c.WeightLoadsEnd := inferInstanceAs (Decidable (_ ∨ _))

variable {c : Config}

/-- A channel is read as words when the weights start on a word and a channel is whole words. -/
theorem wordPath_iff (hc : c.Shape) (ch : BitVec 8) :
    c.WordPath ch ↔ 4 ∣ c.rWtAddr.toNat ∧ 4 ∣ c.taps := by
  have hp := toNat_patchBytes hc
  have ht := hc.taps_le
  have hch := ch.isLt
  have hmul : ch.toNat * c.taps < 2 ^ 32 := by
    calc ch.toNat * c.taps ≤ 255 * 256 := Nat.mul_le_mul (by omega) ht
      _ < 2 ^ 32 := by decide
  have hw : (c.wtAddr ch).toNat = (c.rWtAddr.toNat + ch.toNat * c.taps) % 2 ^ 32 := by
    rw [wtAddr, BitVec.toNat_add, BitVec.toNat_mul, BitVec.toNat_setWidth, BitVec.toNat_setWidth, hp,
      Nat.mod_eq_of_lt (by omega : ch.toNat < 2 ^ 32),
      Nat.mod_eq_of_lt (by omega : c.taps < 2 ^ 32), Nat.mod_eq_of_lt hmul]
  rw [WordPath, ← BitVec.toNat_inj, ← BitVec.toNat_inj, BitVec.extractLsb'_toNat,
    BitVec.extractLsb'_toNat, hw, hp]
  simp only [Nat.shiftRight_zero, BitVec.toNat_ofNat]
  constructor
  · rintro ⟨h1, h2⟩
    have hd : 4 ∣ c.taps := by omega
    have hm : 4 ∣ ch.toNat * c.taps := hd.mul_left _
    exact ⟨by omega, hd⟩
  · rintro ⟨h1, h2⟩
    have hm : 4 ∣ ch.toNat * c.taps := h2.mul_left _
    exact ⟨by omega, by omega⟩

/-- Every channel has its weights loaded if and only if the first one has. -/
theorem weightLoadsEnd_iff (hc : c.Shape) (ch : BitVec 8) :
    c.WeightLoadsEnd ↔ c.WordPath ch ∨ c.ByteLoopEnds := by
  rw [wordPath_iff hc, ByteLoopEnds, byteRounds_eq hc, WeightLoadsEnd, or_comm]

end Config

/-! ## The program ends -/

namespace Seq

variable {c : Config} {a : Seq}

/-- The counters are in range. -/
structure InRange (c : Config) (a : Seq) : Prop where
  cPos : a.cPos.toNat < c.rCOut.toNat
  wPos : a.wPos.toNat < c.wOut

/-- Phases left at most until the program moves on to another output. -/
def phaseRank : Phase → ℕ
  | .weights => 8
  | .bias => 7
  | .shift => 6
  | .input => 5
  | .ovlp | .mac => 4
  | .write => 3
  | .advance => 2
  | .finished => 0

/-- Phases left at most: channels, then positions, then phases of the current output. -/
def rank (c : Config) (a : Seq) : ℕ :=
  if a.phase = .finished then 0
  else (c.rCOut.toNat - a.cPos.toNat) * (10 * c.wOut + 10) + (c.wOut - a.wPos.toNat) * 10 +
    phaseRank a.phase

/-- A phase of lower rank at the same output lowers the rank. -/
theorem rank_lt_of_phase {a' : Seq} (hc : a'.cPos = a.cPos) (hw : a'.wPos = a.wPos)
    (hp : phaseRank a'.phase < phaseRank a.phase) : rank c a' < rank c a := by
  have hne : a.phase ≠ .finished := by
    intro h
    rw [h] at hp
    exact Nat.not_lt_zero _ hp
  rw [rank, rank, if_neg hne, hc, hw]
  split <;> omega

/-- Moving on lowers the rank: a position takes at most ten phases, a channel ten more. -/
theorem advance_rank (hc : c.Shape) (h : InRange c a) (hp : a.phase = .advance) :
    InRange c (a.advance c) ∧ rank c (a.advance c) < rank c a := by
  have hwp := h.wPos
  have hcp := h.cPos
  rw [advance]
  by_cases h1 : a.wPos < c.wOutCnt - 1#16
  · have hlt := (Config.lt_wOutCnt_sub_one hc _).mp h1
    have hnext : (a.wPos + 1#16).toNat = a.wPos.toNat + 1 := toNat_add_one_of_lt h1
    rw [if_pos h1]
    refine ⟨⟨hcp, by rw [hnext]; exact hlt⟩, ?_⟩
    -- the next output starts in one of the two multiply phases, of rank 4
    obtain hmul | hmul : (if a.wPos + 1#16 < c.wOutCnt - 1#16 then Phase.ovlp else .mac) = .ovlp ∨
        (if a.wPos + 1#16 < c.wOutCnt - 1#16 then Phase.ovlp else .mac) = .mac :=
      ite_eq_or_eq _ _ _
    all_goals
      simp only [rank, hmul, hp, hnext, phaseRank, reduceCtorEq, if_false]
      omega
  · rw [if_neg h1]
    by_cases h2 : a.cPos < c.rCOut - 1#8
    · have hlt := (Config.lt_cOut_sub_one hc _).mp h2
      have hnext : (a.cPos + 1#8).toNat = a.cPos.toNat + 1 := toNat_add_one_of_lt h2
      rw [if_pos h2]
      refine ⟨⟨by rw [hnext]; exact hlt, c.wOut_pos⟩, ?_⟩
      have hsplit : (c.rCOut.toNat - a.cPos.toNat) * (10 * c.wOut + 10) =
          (c.rCOut.toNat - (a.cPos.toNat + 1)) * (10 * c.wOut + 10) + (10 * c.wOut + 10) := by
        rw [← Nat.succ_mul]
        congr 1
        omega
      simp [rank, hp, hnext, hsplit, phaseRank]
      omega
    · rw [if_neg h2]
      exact ⟨⟨hcp, c.wOut_pos⟩, by simp [rank, hp, phaseRank]⟩

/-- **Step lemma**: a program whose weight loads end keeps its counters in range and lowers the rank
until it has finished. -/
theorem step_rank (hc : c.Shape) (hw : c.WeightLoadsEnd) (h : InRange c a)
    (hp : a.phase ≠ .finished) : InRange c (a.step c) ∧ rank c (a.step c) < rank c a := by
  cases hph : a.phase with
  | weights =>
    rw [Seq.step_of_weights hph, weights]
    split_ifs with h1 h2
    · exact ⟨⟨h.cPos, h.wPos⟩, rank_lt_of_phase rfl rfl (by simp [hph, phaseRank])⟩
    · exact ⟨⟨h.cPos, h.wPos⟩, rank_lt_of_phase rfl rfl (by simp [hph, phaseRank])⟩
    · exact absurd ((Config.weightLoadsEnd_iff hc a.cPos).mp hw) (by simp [h1, h2])
  | bias =>
    rw [Seq.step_of_bias hph]
    exact ⟨⟨h.cPos, h.wPos⟩, rank_lt_of_phase rfl rfl (by simp [bias, hph, phaseRank])⟩
  | shift =>
    rw [Seq.step_of_shift hph]
    exact ⟨⟨h.cPos, h.wPos⟩, rank_lt_of_phase rfl rfl (by simp [shift, hph, phaseRank])⟩
  | input =>
    rw [Seq.step_of_input hph]
    refine ⟨⟨h.cPos, h.wPos⟩, rank_lt_of_phase rfl rfl ?_⟩
    change phaseRank (if 1#16 < c.wOutCnt then .ovlp else .mac) < phaseRank a.phase
    rw [hph]
    split <;> decide
  | ovlp =>
    rw [Seq.step_of_ovlp hph]
    exact ⟨⟨h.cPos, h.wPos⟩, rank_lt_of_phase rfl rfl (by simp [ovlp, hph, phaseRank])⟩
  | mac =>
    rw [Seq.step_of_mac hph]
    exact ⟨⟨h.cPos, h.wPos⟩, rank_lt_of_phase rfl rfl (by simp [mac, hph, phaseRank])⟩
  | write =>
    rw [Seq.step_of_write hph]
    exact ⟨⟨h.cPos, h.wPos⟩, rank_lt_of_phase rfl rfl (by simp [write, hph, phaseRank])⟩
  | advance =>
    rw [Seq.step_of_advance hph]
    exact advance_rank hc h hph
  | finished => exact absurd hph hp

/-- **The program finishes** when the weight loads end. -/
theorem exists_finished (hc : c.Shape) (hw : c.WeightLoadsEnd) (h : InRange c a) :
    ∃ k, ((step c)^[k] a).phase = .finished :=
  exists_iterate_of_rank (InRange c) (·.phase = .finished) (rank c)
    (fun _ ha hne => step_rank hc hw ha hne) h

/-- A program whose weight loads do not end stays in its first phase. -/
theorem iterate_step_weights (hc : c.Shape) (hw : ¬ c.WeightLoadsEnd) (hp : a.phase = .weights)
    (k : ℕ) : (step c)^[k] a = a := by
  refine Function.iterate_fixed ?_ k
  have hends := mt (Config.weightLoadsEnd_iff hc a.cPos).mpr hw
  rw [not_or] at hends
  rw [Seq.step_of_weights hp, weights, if_neg hends.1, if_neg hends.2]

end Seq

/-! ## The accelerator ends -/

namespace Bench

variable {b : Bench} {i : ℕ → BenchIn}

/-- The edges of a run from a START on an always-ready slave meet `EdgeOk`. -/
theorem edgeOk_of_ready (hi : StartRun i) (hready : ∀ n, (i n).hready = true) (n : ℕ) :
    EdgeOk (trace step (b.step (i 0)) (fun k => i (1 + k)) n) (i (1 + n)) :=
  ⟨by rw [Nat.add_comm]; exact hi.quiet n, fun _ _ => hready _⟩

/-- The DONE bit comes from `S_DONE`: a START has cleared it before. -/
theorem exists_done_of_rDone (hs : b.fsm.state = .idle) (hi : StartRun i) (n : ℕ) :
    (trace step b i (n + 1)).fsm.rDone = true →
      (trace step b i (n + 1)).fsm.state = .idle ∧ ∃ m, (trace step b i m).fsm.state = .done := by
  induction n with
  | zero =>
    intro h
    rw [trace_succ, trace_zero, step_fsm, Fsm.step_of_idle hs] at h
    simp [Fsm.sIdle, hi.start] at h
  | succ n ih =>
    intro h
    rw [trace_succ, step_fsm] at h ⊢
    obtain ⟨hidle, ⟨-, hd⟩ | hd⟩ := rDone_step (fun hd => (ih hd).1) h
    · exact ⟨hidle, (ih hd).2⟩
    · exact ⟨hidle, n + 1, hd⟩

/-- A run whose weight loads end reaches `S_DONE`. -/
theorem exists_done (hs : b.fsm.state = .idle) (hi : StartRun i)
    (hready : ∀ n, (i n).hready = true) (hc : b.dut.cfg.Shape) (hw : b.dut.cfg.WeightLoadsEnd) :
    ∃ n, (trace step b i n).fsm.state = .done := by
  set a : Seq := { Seq.start b with mem := (b.step (i 0)).effMem }
  obtain ⟨k, hk⟩ := Seq.exists_finished (a := a) hc hw ⟨hc.cOut, Config.wOut_pos _⟩
  have hrel := rel_start_of_idle hs hi.start
  obtain ⟨n, hn⟩ := (stutterSim b.dut.cfg).exists_trace hrel (edgeOk_of_ready hi hready)
    (fun n => ⟨n, le_rfl, hready _⟩) k
  rw [← trace_one_add] at hn
  rcases hn.state_of_finished hk with hd | ⟨-, hd⟩
  · exact ⟨n + 1, hd⟩
  · exact (exists_done_of_rDone hs hi n hd).2

/-- A run whose weight loads do not end never does. -/
theorem never_done (hs : b.fsm.state = .idle) (hi : StartRun i)
    (hready : ∀ n, (i n).hready = true) (hc : b.dut.cfg.Shape) (hw : ¬ b.dut.cfg.WeightLoadsEnd)
    (n : ℕ) : (trace step b i n).fsm.state ≠ .done := by
  cases n with
  | zero =>
    rw [trace_zero, hs]
    decide
  | succ n =>
    have hrel := rel_start_of_idle hs hi.start
    obtain ⟨k, hk⟩ := (stutterSim b.dut.cfg).exists_iterate hrel (edgeOk_of_ready hi hready) n
    rw [← trace_one_add, Seq.iterate_step_weights hc hw rfl] at hk
    intro hd
    rw [Rel, hd] at hk
    cases hk.1

/-- **Termination.** For every shape the buffers hold and all addresses, a run from a START in
`S_IDLE` on an always-ready slave reaches `S_DONE` if and only if the weight loads end. -/
theorem terminates_iff (hs : b.fsm.state = .idle) (hi : StartRun i)
    (hready : ∀ n, (i n).hready = true) (hc : b.dut.cfg.Shape) :
    (∃ n, (trace step b i n).fsm.state = .done) ↔ b.dut.cfg.WeightLoadsEnd := by
  constructor
  · rintro ⟨n, hn⟩
    by_contra hw
    exact never_done hs hi hready hc hw n hn
  · exact exists_done hs hi hready hc

/-- One tap of one channel ends. -/
theorem terminates_iff_twoOutputs :
    (∃ n, (trace step twoOutputs (startWithStalls []) n).fsm.state = .done) ↔
      twoOutputs.dut.cfg.WeightLoadsEnd :=
  terminates_iff rfl (startRun_startWithStalls _) (fun _ => by simp [startWithStalls])
    valid_twoOutputs.shape

/-- A layer of 129 channels and one tap, which the 256 bytes of the buffers hold. -/
def wideLayer : Bench where
  dut := ⟨{ Config.reset with rCIn := 129 }, .blank⟩
  slave := ⟨false, 0, false, 0, fun _ => 0⟩

/-- **The weight loop hangs**: 129 weights are read byte by byte, and the 7 bits of `buf_idx` never
get to 128. -/
theorem weight_loop_hangs :
    wideLayer.fsm.state = .idle ∧ StartRun (startWithStalls []) ∧
      (∀ n, (startWithStalls [] n).hready = true) ∧ wideLayer.dut.cfg.Shape ∧
      ¬ ∃ n, (trace step wideLayer (startWithStalls []) n).fsm.state = .done := by
  have hc : wideLayer.dut.cfg.Shape :=
    ⟨by decide, by decide, by decide, by decide, by decide, by decide⟩
  refine ⟨rfl, startRun_startWithStalls _, fun _ => by simp [startWithStalls], hc, ?_⟩
  rintro ⟨n, hn⟩
  exact never_done rfl (startRun_startWithStalls _) (fun _ => by simp [startWithStalls]) hc
    (by decide) n hn

end Bench

end KwsSoc.Conv1dAccel
