import Mathlib.Tactic
import KwsSoc.Xip.SamplePlayer

/-! # Which samples are played

The words that the sample player loads (`loaded`) and the bits it shifts out (`ShiftedOut`), over
whole runs. `plays_inOrder`: when the bus keeps pace with WS (`Paced`), the words loaded are
consecutive samples, and every word is shifted out from bit 31 on. `paced_of_inOrder` is the
converse, and `frames` a run that does not keep pace. -/

namespace KwsSoc.SamplePlayer

open SyncMachine

/-! ## Loads -/

/-- How many loads come before cycle `n`. -/
def loadCount (x : ℕ → Inputs) (n : ℕ) : ℕ := Nat.count (fun k => loadAt x k = true) n

theorem loadCount_succ (x : ℕ → Inputs) (n : ℕ) :
    loadCount x (n + 1) = loadCount x n + if loadAt x n = true then 1 else 0 :=
  Nat.count_succ _ n

theorem reads_pos {x : ℕ → Inputs} {n : ℕ} (h : loadAt x n = true) : 0 < reads x n := by
  simp only [loadAt, Bool.and_eq_true, decide_eq_true_eq] at h
  exact h.2

/-- Between two successive loads nothing is counted. -/
theorem Successive.loadCount_eq {x : ℕ → Inputs} {a b : ℕ} (h : Successive x a b) :
    loadCount x b = loadCount x a + 1 := by
  obtain ⟨d, rfl⟩ := Nat.exists_eq_add_of_lt h.lt
  have hnone : Nat.count (fun k => loadAt x (a + 1 + k) = true) d = 0 := by
    refine Nat.count_iff_forall_not.mpr fun k hk => ?_
    rw [h.between (a + 1 + k) (by omega) (by omega)]
    exact Bool.false_ne_true
  rw [loadCount, show a + d + 1 = (a + 1) + d by omega, Nat.count_add, hnone, Nat.count_succ,
    if_pos h.left]
  rfl

/-- A load that is not the first one has a load before it. -/
theorem exists_successive {x : ℕ → Inputs} {t n : ℕ} (ht : loadAt x t = true)
    (hn : loadAt x n = true) (hlt : t < n) : ∃ a, t ≤ a ∧ Successive x a n := by
  -- the last load before `n`
  let a := Nat.findGreatest (fun c => loadAt x c = true) (n - 1)
  have hle : a ≤ n - 1 := Nat.findGreatest_le _
  have ha : loadAt x a = true :=
    Nat.findGreatest_spec (P := fun c => loadAt x c = true) (show t ≤ n - 1 by omega) ht
  refine ⟨a, Nat.le_findGreatest (by omega) ht, ⟨by omega, ha, hn, ?_⟩⟩
  intro c hac hcn
  have := Nat.findGreatest_is_greatest (P := fun c => loadAt x c = true) hac (by omega)
  rwa [Bool.not_eq_true] at this

/-- **The reads before each load**, when the bus keeps pace: one more for each load. -/
theorem Paced.reads_modEq {nSamples : ℕ} {x : ℕ → Inputs} (hp : Paced x nSamples) {t : ℕ}
    (ht : loadAt x t = true) (h0 : loadCount x t = 0) (n : ℕ) (htn : t ≤ n)
    (hn : loadAt x n = true) : reads x t + loadCount x n ≡ reads x n [MOD nSamples] := by
  -- on the loads: back to the one before
  induction n using Nat.strong_induction_on with
  | _ n ih =>
    rcases Nat.eq_or_lt_of_le htn with rfl | hlt
    · rw [h0]
      exact Nat.ModEq.refl _
    · obtain ⟨a, hta, ha⟩ := exists_successive ht hn hlt
      have hprev := ih a ha.lt hta ha.left
      rw [ha.loadCount_eq, ← Nat.add_assoc]
      exact (hprev.add_right 1).trans (hp a n ha)

/-! ## The words loaded -/

section Run

variable {nSamples : ℕ} (base : BitVec 32) (mem : BitVec 32 → BitVec 32) (x : ℕ → Inputs)

/-- The words put into the shift register before cycle `n`, in order. -/
def loaded (nSamples : ℕ) : ℕ → List (BitVec 32)
  | 0 => []
  | n + 1 =>
    loaded nSamples n ++
      if (Sys.run base mem x n : Sys nSamples).player.loads (x n) then
        [(Sys.run base mem x (n + 1) : Sys nSamples).player.shiftReg]
      else []

/-- The words loaded are consecutive samples. -/
def InOrder (nSamples : ℕ) : Prop :=
  ∃ i, ∀ n, loaded base mem x nSamples n =
    (List.range (loadCount x n)).map fun k => sample base mem ((i + k) % nSamples)

/-- Bit `31 - f` of a word, for the first 32 values of `f`. -/
def bit31First (w : BitVec 32) (f : ℕ) : Bool := if f < 32 then w.getLsbD (31 - f) else false

/-- How often SCK falls in the `d` cycles from cycle `a` on. -/
def falls (a d : ℕ) : ℕ := Nat.count (fun k => sckFalls x (a + k) = true) d

/-- A word is shifted out until the next load: bit 31 first, and one bit for each falling edge of
SCK after the load. -/
def ShiftedOut (nSamples : ℕ) : Prop :=
  ∀ t d, (Sys.run base mem x t : Sys nSamples).player.loads (x t) = true →
    (∀ c, t < c → c ≤ t + d →
      (Sys.run base mem x c : Sys nSamples).player.loads (x c) = false) →
    (Sys.run base mem x (t + d + 2) : Sys nSamples).player.sdOut =
      bit31First (Sys.run base mem x (t + 1) : Sys nSamples).player.shiftReg (falls x (t + 1) d)

variable {base mem x}

/-- What a load adds. -/
theorem loaded_succ (hN : 2 ≤ nSamples) {n : ℕ} (hl : loadAt x n = true) :
    loaded base mem x nSamples (n + 1) =
      loaded base mem x nSamples n ++ [sample base mem ((reads x n - 1) % nSamples)] := by
  rw [loaded, run_loads hN, if_pos hl, run_load hN base mem hl]

theorem loaded_succ_of_not (hN : 2 ≤ nSamples) {n : ℕ} (hl : loadAt x n = false) :
    loaded base mem x nSamples (n + 1) = loaded base mem x nSamples n := by
  rw [loaded, run_loads hN, hl, if_neg Bool.false_ne_true, List.append_nil]

/-- **The order of the samples**, when the bus keeps pace. -/
theorem Paced.inOrder (hN : 2 ≤ nSamples) (hp : Paced x nSamples) :
    InOrder base mem x nSamples := by
  classical
  by_cases hex : ∃ t, loadAt x t = true
  · -- the first load says where the samples start
    have ht := Nat.find_spec hex
    have h0 : loadCount x (Nat.find hex) = 0 :=
      Nat.count_iff_forall_not.mpr fun c hc => Nat.find_min hex hc
    have hpos := reads_pos ht
    refine ⟨reads x (Nat.find hex) - 1, fun n => ?_⟩
    induction n with
    | zero => rfl
    | succ n ih =>
      cases hl : loadAt x n with
      | false => rw [loaded_succ_of_not hN hl, loadCount_succ, hl, if_neg Bool.false_ne_true, ih,
          Nat.add_zero]
      | true =>
        have hmod := hp.reads_modEq ht h0 n (Nat.find_min' hex hl) hl
        have hposn := reads_pos hl
        have hidx : (reads x n - 1) % nSamples =
            (reads x (Nat.find hex) - 1 + loadCount x n) % nSamples := by
          apply Nat.ModEq.add_right_cancel' 1
          rw [show reads x n - 1 + 1 = reads x n by omega,
            show reads x (Nat.find hex) - 1 + loadCount x n + 1 =
              reads x (Nat.find hex) + loadCount x n by omega]
          exact hmod.symm
        rw [loaded_succ hN hl, loadCount_succ, if_pos hl, List.range_succ, List.map_append, ih,
          List.map_singleton, hidx]
  · refine ⟨0, fun n => ?_⟩
    have hnone (c : ℕ) : loadAt x c = false := by
      rw [← Bool.not_eq_true]
      exact fun hc => hex ⟨c, hc⟩
    induction n with
    | zero => rfl
    | succ n ih =>
      rw [loaded_succ_of_not hN (hnone n), loadCount_succ, hnone n, if_neg Bool.false_ne_true, ih,
        Nat.add_zero]

/-! ## The bits shifted out -/

theorem falls_succ (x : ℕ → Inputs) (a d : ℕ) :
    falls x a (d + 1) = falls x a d + if sckFalls x (a + d) = true then 1 else 0 :=
  Nat.count_succ _ d

/-- `bitPos` after `f` falling edges. -/
def bitPosAfter (f : ℕ) : BitVec 6 := if f < 32 then BitVec.ofNat 6 (31 - f) else 63

/-- One falling edge more. -/
theorem bitPosAfter_succ (f : ℕ) : bitPosAfter (f + 1) =
    if (bitPosAfter f).toNat < 32 then bitPosAfter f - 1 else bitPosAfter f := by
  have hlow : ∀ f < 32, bitPosAfter (f + 1) =
      if (bitPosAfter f).toNat < 32 then bitPosAfter f - 1 else bitPosAfter f := by decide
  rcases Nat.lt_or_ge f 32 with hf | hf
  · exact hlow f hf
  · have h1 : bitPosAfter f = 63 := if_neg (by omega)
    have h2 : bitPosAfter (f + 1) = 63 := if_neg (by omega)
    rw [h1, h2]
    rfl

/-- **The shift register between two loads**: the word stays, and the position counts the falling
edges of SCK. -/
theorem run_shift (hN : 2 ≤ nSamples) (base : BitVec 32) (mem : BitVec 32 → BitVec 32)
    {x : ℕ → Inputs} {t : ℕ} (ht : loadAt x t = true) (d : ℕ)
    (hnone : ∀ c, t < c → c < t + 1 + d → loadAt x c = false) :
    (Sys.run base mem x (t + 1 + d) : Sys nSamples).player.shiftReg =
        (Sys.run base mem x (t + 1) : Sys nSamples).player.shiftReg ∧
      (Sys.run base mem x (t + 1 + d) : Sys nSamples).player.bitPos =
        bitPosAfter (falls x (t + 1) d) := by
  induction d with
  | zero =>
    refine ⟨rfl, ?_⟩
    rw [Nat.add_zero, run_bitPos, run_loads hN, ht, if_pos rfl]
    rfl
  | succ d ih =>
    obtain ⟨ihw, ihp⟩ := ih fun c hc hcd => hnone c hc (by omega)
    have hl : (Sys.run base mem x (t + 1 + d) : Sys nSamples).player.loads (x (t + 1 + d)) =
        false := by
      rw [run_loads hN]
      exact hnone _ (by omega) (by omega)
    have hsck : (Sys.run base mem x (t + 1 + d) : Sys nSamples).player.sckFalling
        (x (t + 1 + d)) = sckFalls x (t + 1 + d) := by
      rw [Regs.sckFalling, (run_inv hN base mem x (t + 1 + d)).sckPrev]
      rfl
    rw [← Nat.add_assoc]
    refine ⟨?_, ?_⟩
    · -- no load: the word stays
      rw [run_shiftReg, hl, if_neg Bool.false_ne_true, ihw]
    · -- a falling edge of SCK moves the position on by one
      rw [run_bitPos, hl, if_neg Bool.false_ne_true, hsck, ihp, falls_succ]
      cases hf : sckFalls x (t + 1 + d) with
      | false => simp
      | true =>
        rw [if_pos rfl, bitPosAfter_succ]
        simp

/-- The bit at the position that `f` falling edges lead to. -/
theorem bitPosAfter_bit (w : BitVec 32) (f : ℕ) :
    (if (bitPosAfter f).toNat < 32 then w.getLsbD (bitPosAfter f).toNat else false) =
      bit31First w f := by
  have hlow : ∀ f < 32, (bitPosAfter f).toNat = 31 - f := by decide
  rcases Nat.lt_or_ge f 32 with hf | hf
  · rw [hlow f hf, if_pos (by omega), bit31First, if_pos hf]
  · have h63 : bitPosAfter f = 63 := if_neg (by omega)
    rw [h63, bit31First, if_neg (show ¬ f < 32 by omega)]
    rfl

/-- **The serialiser** shifts out every word it loads, whatever the bus does. -/
theorem shiftedOut (hN : 2 ≤ nSamples) (base : BitVec 32) (mem : BitVec 32 → BitVec 32)
    (x : ℕ → Inputs) : ShiftedOut base mem x nSamples := by
  intro t d ht hnone
  rw [run_loads hN] at ht
  obtain ⟨hw, hp⟩ := run_shift hN base mem ht d fun c hc hcd => by
    rw [← run_loads hN base mem]
    exact hnone c hc (by omega)
  rw [show t + d + 2 = t + 1 + d + 1 by omega, run_sdOut, hw, hp, bitPosAfter_bit]

/-! ## Both together -/

/-- **Playback.** When the bus keeps pace with WS, the words loaded are consecutive samples; each
is shifted out bit 31 first. -/
theorem plays_inOrder (hN : 2 ≤ nSamples) (base : BitVec 32) (mem : BitVec 32 → BitVec 32)
    (x : ℕ → Inputs) (hp : Paced x nSamples) :
    InOrder base mem x nSamples ∧ ShiftedOut base mem x nSamples :=
  ⟨hp.inOrder hN, shiftedOut hN base mem x⟩

/-- Samples have different addresses. -/
theorem sample_id_inj {base : BitVec 32} (hfit : 4 * nSamples ≤ 2 ^ 32) {j k : ℕ}
    (hj : j < nSamples) (hk : k < nSamples) (h : sample base id j = sample base id k) : j = k := by
  have h' : base + BitVec.ofNat 32 (4 * j) = base + BitVec.ofNat 32 (4 * k) := h
  have := congrArg BitVec.toNat ((BitVec.add_right_inj base).mp h')
  rw [BitVec.toNat_ofNat, BitVec.toNat_ofNat, Nat.mod_eq_of_lt (by omega),
    Nat.mod_eq_of_lt (by omega)] at this
  omega

/-- **The pace is needed**: where every sample is its own address, samples in order mean that one
read ends from each load to the next, modulo the number of samples. -/
theorem paced_of_inOrder (hN : 2 ≤ nSamples) (hfit : 4 * nSamples ≤ 2 ^ 32)
    (h : InOrder base id x nSamples) : Paced x nSamples := by
  obtain ⟨i, hi⟩ := h
  -- what a load puts at the end of the list names the sample that was read last
  have hidx {n : ℕ} (hl : loadAt x n = true) :
      reads x n ≡ i + loadCount x n + 1 [MOD nSamples] := by
    have hnext := hi (n + 1)
    rw [loaded_succ hN hl, hi n, loadCount_succ, if_pos hl, List.range_succ, List.map_append,
      List.map_singleton] at hnext
    have hlast := List.singleton_inj.mp (List.append_cancel_left hnext)
    have hmod := sample_id_inj hfit (Nat.mod_lt _ (by omega)) (Nat.mod_lt _ (by omega)) hlast
    have hpos := reads_pos hl
    have hadd : reads x n - 1 + 1 ≡ i + loadCount x n + 1 [MOD nSamples] :=
      Nat.ModEq.add_right 1 hmod
    rwa [show reads x n - 1 + 1 = reads x n by omega] at hadd
  intro a b hab
  have hb := hidx hab.right
  rw [hab.loadCount_eq, ← Nat.add_assoc] at hb
  exact ((hidx hab.left).add_right 1).trans hb.symm

end Run

/-! ## A bus without wait states -/

/-- WS frames of 64 SCK periods of two cycles, and a bus that is always ready. -/
def frames (n : ℕ) : Inputs := ⟨true, decide (n % 2 = 1), decide (64 ≤ n % 128)⟩

theorem dataPhase_frames (n : ℕ) : dataPhase frames n = decide (n % 2 = 1) := by
  induction n with
  | zero => rfl
  | succ n ih =>
    show (!(dataPhase frames n && true)) = _
    rw [ih]
    rcases Nat.mod_two_eq_zero_or_one n with h | h <;> simp [h, Nat.add_mod]

/-- A read takes two cycles. -/
theorem reads_frames (n : ℕ) : reads frames n = n / 2 := by
  induction n with
  | zero => rfl
  | succ n ih =>
    have he : readEnds frames n = decide (n % 2 = 1) := by
      rw [readEnds, dataPhase_frames]
      exact Bool.and_true _
    rw [reads_succ, he, ih]
    split <;> simp only [decide_eq_true_eq] at * <;> omega

theorem loadAt_frames (n : ℕ) : loadAt frames n = decide (n % 128 = 0 ∧ 0 < n) := by
  rw [loadAt, reads_frames]
  cases n with
  | zero => rfl
  | succ n =>
    show (decide (64 ≤ n % 128) && !decide (64 ≤ (n + 1) % 128) && decide (0 < (n + 1) / 2)) = _
    rw [Bool.eq_iff_iff]
    simp only [Bool.and_eq_true, Bool.not_eq_true', decide_eq_true_eq, decide_eq_false_iff_not]
    omega

/-- Loads are one frame apart. -/
theorem successive_frames {a b : ℕ} (h : Successive frames a b) : a % 128 = 0 ∧ b = a + 128 := by
  have ha := h.left
  have hb := h.right
  have hlt := h.lt
  rw [loadAt_frames, decide_eq_true_eq] at ha hb
  refine ⟨ha.1, ?_⟩
  by_contra hne
  have hmid := h.between (a + 128) (by omega) (by omega)
  rw [loadAt_frames, decide_eq_false_iff_not] at hmid
  omega

/-- 64 reads end in every frame. -/
theorem reads_successive_frames {a b : ℕ} (h : Successive frames a b) :
    reads frames b = reads frames a + 64 := by
  obtain ⟨-, rfl⟩ := successive_frames h
  rw [reads_frames, reads_frames]
  omega

theorem paced_frames : Paced frames 63 := by
  intro a b h
  rw [reads_successive_frames h]
  show (reads frames a + 1) % 63 = (reads frames a + 64) % 63
  omega

theorem plays_inOrder_frames :
    InOrder 0x80010000#32 id frames 63 ∧ ShiftedOut 0x80010000#32 id frames 63 :=
  plays_inOrder (by decide) _ _ _ paced_frames

/-- With 8000 samples, 63 of 64 are skipped. -/
theorem not_inOrder_frames :
    ReadPerFrame frames ∧ ¬ InOrder 0x80010000#32 id frames 8000 := by
  refine ⟨fun a b h => ?_, fun hin => ?_⟩
  · rw [reads_successive_frames h]
    omega
  · have hsucc : Successive frames 128 256 := by
      refine ⟨by decide, by rw [loadAt_frames]; decide, by rw [loadAt_frames]; decide, ?_⟩
      intro c hc hc'
      rw [loadAt_frames, decide_eq_false_iff_not]
      omega
    have hmod : reads frames 128 + 1 ≡ reads frames 256 [MOD 8000] :=
      paced_of_inOrder (by decide) (by decide) hin 128 256 hsucc
    rw [reads_frames, reads_frames] at hmod
    exact absurd hmod (by decide)

end KwsSoc.SamplePlayer
