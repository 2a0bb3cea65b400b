import KwsSoc.Firmware.Ring

/-! # Sliding windows are intact

Whatever the interleaving, the ring holds the last 16384 captured bytes (`HwInv`), and the main loop
copies a window whose end has been captured (`LoopInv`), so a window is intact as long as nothing of
it is overwritten during the copy. `window_intact` has this when every check for audio loss leaves
room in the ring for what arrives during the copy (`InSlack`). With a decimation of 1 the threshold
of the check sees to it; with a decimation of 2 an iteration that takes longer than a clip leaves
none, and the check lets the window pass (`stale_window`). -/

namespace KwsSoc.Firmware.Capture

open StreamRing SyncMachine

variable {b : Build} {stream : ℕ → BitVec 8} {s : Sys}

/-! ## Numbers of a build -/

namespace Build

theorem clip_le (b : Build) : b.clip ≤ 16000 := by
  rcases b.decimate_eq with h | h <;> simp [clip, modelSamplesPerClip, h]

theorem burstBytes_pos (b : Build) : 0 < b.burstBytes := Nat.mul_pos (by decide) b.burst_pos

theorem burstBytes_le (b : Build) : b.burstBytes ≤ ringSamples :=
  Nat.le_of_dvd (by decide) b.burst_dvd

/-- A clip fits the counters. -/
theorem toNat_clip (b : Build) : (BitVec.ofNat 32 b.clip).toNat = b.clip := by
  have := b.clip_le
  rw [BitVec.toNat_ofNat]
  omega

/-- A step is never as long as half the range of the counters. -/
theorem toNat_stepBytes_lt (b : Build) (n : BitVec 32) : (b.stepBytes n).toNat < 2 ^ 31 := by
  have hclip : (BitVec.ofNat 32 b.clip).toNat < 2 ^ 31 := by
    have := b.clip_le
    rw [b.toNat_clip]
    omega
  rw [stepBytes]
  split
  case h_1 => assumption
  case h_2 => exact hclip
  case h_3 =>
    rename_i minStep _
    generalize (if n < minStep then minStep else n) = step
    by_cases hgt : step > BitVec.ofNat 32 b.clip
    · simpa only [if_pos hgt] using hclip
    · rw [gt_iff_lt, BitVec.lt_def] at hgt
      simp only [gt_iff_lt, BitVec.lt_def, if_neg hgt]
      omega

end Build

/-! ## Counters and indices -/

namespace Sys

/-- The signed difference of the counters is the true one, up to wrap-around. -/
theorem lag_eq (hw : s.bytesWritten = .ofNat 32 s.ghost.published)
    (hn : s.bytesAtNextInference = .ofNat 32 s.ghost.nextAbs) :
    s.lag = Int.bmod ((s.ghost.published : ℤ) - s.ghost.nextAbs) (2 ^ 32) := by
  rw [lag, hw, hn, BitVec.toInt_sub, BitVec.toInt_ofNat', BitVec.toInt_ofNat',
    Int.sub_bmod_bmod, Int.bmod_sub_bmod]

/-- The slot of sample `j` is that of its place in the stream. -/
theorem ringIdx_eq (hn : s.bytesAtNextInference = .ofNat 32 s.ghost.nextAbs)
    (hc : b.clip ≤ s.ghost.nextAbs) (j : ℕ) :
    s.ringIdx b j = (s.ghost.nextAbs - b.clip + j * b.decimate) % ringSamples := by
  have hmask : ∀ v : BitVec 32,
      (v &&& .ofNat 32 (ringSamples - 1)).toNat = v.toNat % ringSamples := by
    intro v
    rw [BitVec.toNat_and]
    exact Nat.and_two_pow_sub_one_eq_mod v.toNat 14
  have hclip := b.clip_le
  have hsub : (s.bytesAtNextInference - .ofNat 32 b.clip).toNat =
      (s.ghost.nextAbs - b.clip) % 2 ^ 32 := by
    rw [hn, BitVec.toNat_sub, BitVec.toNat_ofNat, BitVec.toNat_ofNat]
    omega
  rw [ringIdx]
  simp only [hmask, BitVec.toNat_add, hsub, BitVec.toNat_ofNat, ringSamples]
  omega

/-! ## The hardware side -/

/-- **Invariant of capture**: the DMA is at the place of the next byte, the counter is right, and
the ring holds the last bytes captured. -/
structure HwInv (b : Build) (stream : ℕ → BitVec 8) (s : Sys) : Prop where
  inBurst : s.inBurst ≤ b.burstWords
  daddr : s.daddr = s.ghost.published % ringSamples
  whole : b.burstBytes ∣ s.ghost.published
  counted : s.bytesWritten = .ofNat 32 s.ghost.published
  holds : Holds ringSamples s.audioRing stream s.captured

theorem HwInv.init (b : Build) (stream : ℕ → BitVec 8) : HwInv b stream (Sys.init b) :=
  ⟨Nat.zero_le _, rfl, dvd_zero _, rfl, holds_zero _ _ _⟩

/-- A burst lies in one piece in the ring. -/
theorem HwInv.slot (h : HwInv b stream s) {t : ℕ} (ht : t < b.burstBytes) :
    (s.ghost.published + t) % ringSamples = s.daddr + t := by
  obtain ⟨k, hk⟩ := h.whole
  obtain ⟨r, hr⟩ := b.burst_dvd
  have hpos := b.burstBytes_pos
  have hr' : ringSamples = b.burstBytes * r := hr
  have hmod : s.ghost.published % ringSamples = b.burstBytes * (k % r) := by
    rw [hk, hr', Nat.mul_mod_mul_left]
  have hrpos : 0 < r := by
    rcases Nat.eq_zero_or_pos r with h0 | h0
    · rw [h0, Nat.mul_zero] at hr'
      cases hr'
    · exact h0
  have hfit : b.burstBytes * (k % r) + t < ringSamples := by
    have hle := Nat.mul_le_mul_left b.burstBytes (Nat.mod_lt k hrpos)
    rw [Nat.mul_succ] at hle
    omega
  rw [Nat.add_mod, Nat.mod_eq_of_lt (lt_of_lt_of_le ht b.burstBytes_le), hmod,
    Nat.mod_eq_of_lt hfit, h.daddr, hmod]

theorem HwInv.word (h : HwInv b stream s) : HwInv b stream (s.word b stream) := by
  rw [Sys.word]
  split
  case isFalse => exact h
  case isTrue hlt =>
    have hslot : ∀ t < 4, (s.captured + t) % ringSamples = s.daddr + 4 * s.inBurst + t := by
      intro t ht
      have hin : 4 * s.inBurst + t < b.burstBytes := by
        rw [Build.burstBytes]
        omega
      rw [captured, Nat.add_assoc, h.slot hin, Nat.add_assoc]
    refine ⟨hlt, h.daddr, h.whole, h.counted, ?_⟩
    have h1 := h.holds.push
    have h2 := h1.push
    have h3 := h2.push
    have h4 := h3.push
    rw [Nat.add_assoc, Nat.add_assoc, Nat.add_assoc] at h4
    simp only [Nat.add_assoc, Nat.reduceAdd] at h4
    have e0 := hslot 0 (by decide)
    rw [Nat.add_zero, Nat.add_zero] at e0
    rw [e0, hslot 1 (by decide), hslot 2 (by decide), hslot 3 (by decide)] at h4
    have hcap : s.captured + 4 = s.ghost.published + 4 * (s.inBurst + 1) := by
      rw [captured]
      omega
    rw [hcap] at h4
    exact h4

theorem HwInv.irq (h : HwInv b stream s) : HwInv b stream (s.irq b) := by
  rw [Sys.irq]
  split
  case isFalse => exact h
  case isTrue hlast =>
    obtain ⟨k, hk⟩ := h.whole
    obtain ⟨r, hr⟩ := b.burst_dvd
    have hpos := b.burstBytes_pos
    have hslot := h.slot (t := b.burstBytes - 1) (by omega)
    have hlt := Nat.mod_lt (s.ghost.published + (b.burstBytes - 1)) (by decide : 0 < ringSamples)
    refine ⟨Nat.zero_le _, ?_, ?_, ?_, ?_⟩
    · have hd := h.daddr
      simp only [ringSamples] at hd hslot hlt ⊢
      split <;> omega
    · exact Nat.dvd_add ⟨k, hk⟩ (dvd_refl _)
    · rw [h.counted, BitVec.ofNat_add]
    · have hcap : s.captured = s.ghost.published + b.burstBytes + 4 * 0 := by
        rw [captured, hlast, Build.burstBytes, Nat.mul_zero, Nat.add_zero]
      have hh := h.holds
      rw [hcap] at hh
      exact hh

/-- The main loop does not touch the hardware side. -/
theorem HwInv.cpu (h : HwInv b stream s) : HwInv b stream (s.cpu b) := by
  obtain ⟨h1, h2, h3, h4, h5⟩ := h
  rw [Sys.cpu]
  cases s.pc
  case wait =>
    simp only
    split <;> exact ⟨h1, h2, h3, h4, h5⟩
  all_goals exact ⟨h1, h2, h3, h4, h5⟩

theorem HwInv.step (h : HwInv b stream s) (e : Event) : HwInv b stream (s.step b stream e) := by
  cases e
  case word => exact h.word
  case irq => exact h.irq
  case cpu => exact h.cpu

/-- The hardware side does not depend on what the main loop does. -/
theorem hwInv_run (e : ℕ → Event) (n : ℕ) : HwInv b stream (run b stream e n) :=
  trace_invariant (HwInv b stream) (HwInv.init b stream) (fun n h => h.step (e n)) n

/-! ## Positions -/

/-- **Invariant of the positions**: the counter of the next window is right, and unless the main
loop waits for the window, its end has been captured. This does not depend on when the bursts
arrive. -/
structure Positions (b : Build) (s : Sys) : Prop where
  next : s.bytesAtNextInference = .ofNat 32 s.ghost.nextAbs
  clip_le : b.clip ≤ s.ghost.nextAbs
  ahead : s.ghost.nextAbs < s.ghost.published + 2 ^ 31
  reached : s.pc ≠ .wait → s.ghost.nextAbs ≤ s.ghost.published

theorem Positions.init (b : Build) : Positions b (Sys.init b) := by
  have hclip := b.clip_le
  refine ⟨rfl, le_refl _, ?_, fun hpc => absurd rfl hpc⟩
  simp only [Sys.init]
  omega

theorem Positions.word (h : Positions b s) : Positions b (s.word b stream) := by
  rw [Sys.word]
  split
  · exact ⟨h.next, h.clip_le, h.ahead, h.reached⟩
  · exact h

theorem Positions.irq (h : Positions b s) : Positions b (s.irq b) := by
  rw [Sys.irq]
  split
  · have ha := h.ahead
    refine ⟨h.next, h.clip_le, ?_, fun hpc => le_trans (h.reached hpc) (Nat.le_add_right _ _)⟩
    simp only
    omega
  · exact h

theorem Positions.cpu (hw : HwInv b stream s) (h : Positions b s) : Positions b (s.cpu b) := by
  obtain ⟨hn, hclip, hahead, hreached⟩ := h
  rw [Sys.cpu]
  cases hpc : s.pc
  case wait =>
    simp only
    split
    · exact ⟨hn, hclip, hahead, hreached⟩
    · -- the wait ends when the window is complete: the counters have not wrapped past it
      rename_i hlag
      refine ⟨hn, hclip, hahead, fun _ => ?_⟩
      by_contra hlt
      simp only at hlt
      apply hlag
      rw [lag_eq hw.counted hn, Int.bmod_eq_of_le] <;> omega
  case resync =>
    have hr := hreached (by simp [hpc])
    exact ⟨hw.counted, le_trans hclip hr, by simp only; omega, fun _ => le_refl _⟩
  case advance =>
    have hr := hreached (by simp [hpc])
    have hstep := b.toNat_stepBytes_lt (s.bytesWritten - s.iterStartBw)
    refine ⟨?_, by simp only; omega, by simp only; omega, fun hc => absurd rfl hc⟩
    simp only [hn, BitVec.ofNat_add, BitVec.ofNat_toNat, BitVec.setWidth_eq]
  all_goals
    exact ⟨hn, hclip, hahead, fun _ => hreached (by simp [hpc])⟩

theorem Positions.step (hw : HwInv b stream s) (h : Positions b s) (e : Event) :
    Positions b (s.step b stream e) := by
  cases e
  case word => exact h.word
  case irq => exact h.irq
  case cpu => exact h.cpu hw

/-- The positions are right in every run. -/
theorem positions_run (e : ℕ → Event) (n : ℕ) : Positions b (run b stream e n) :=
  (trace_invariant (fun s => HwInv b stream s ∧ Positions b s)
    ⟨HwInv.init b stream, Positions.init b⟩
    (fun n h => ⟨h.1.step (e n), h.2.step h.1 (e n)⟩) n).2

/-! ## The main loop -/

/-- From the check for audio loss to the end of the copy. -/
def Copying (s : Sys) : Prop := s.pc = .resync ∨ ∃ j, s.pc = .copy j

/-- Samples of the present window copied so far. -/
def samplesDone : Pc → ℕ
  | .copy j => j
  | .infer => modelSamplesPerClip
  | _ => 0

/-- Sample `j` of the window that ends at `bytes_at_next_inference`. -/
def windowSample (b : Build) (stream : ℕ → BitVec 8) (s : Sys) (j : ℕ) : BitVec 8 :=
  stream (s.ghost.nextAbs - b.clip + j * b.decimate)

/-- **An intact window**: what is handed to `peak_norm_clip` is the captured stream. -/
def Intact (b : Build) (stream : ℕ → BitVec 8) (s : Sys) : Prop :=
  s.pc = .infer → ∀ j < modelSamplesPerClip, s.nnomInputData j = windowSample b stream s j

/-- Fewer than 384 ring bytes, less a burst, arrive between the check and the end of the copy. -/
def Timely (b : Build) (s : Sys) : Prop :=
  s.Copying → s.captured + b.burstBytes < s.ghost.checkedAt + 384

/-- During the copy, unless the check has resynchronised, the capture is not further ahead of the
end of the window than the ring is longer than a window. -/
def LagOk (b : Build) (s : Sys) : Prop :=
  ∀ j, s.pc = .copy j → s.ghost.resynced = false →
    s.captured + b.clip ≤ s.ghost.nextAbs + ringSamples

/-- **Invariant of the main loop.** -/
structure LoopInv (b : Build) (stream : ℕ → BitVec 8) (s : Sys) : Prop where
  next : s.bytesAtNextInference = .ofNat 32 s.ghost.nextAbs
  clip_le : b.clip ≤ s.ghost.nextAbs
  ahead : s.ghost.nextAbs < s.ghost.published + 2 ^ 31
  reached : s.pc ≠ .wait → s.ghost.nextAbs ≤ s.ghost.published
  checked : s.pc = .resync → s.ghost.checkedAt ≤ s.ghost.published + b.burstBytes
  resynced : s.Copying → s.ghost.resynced = true →
    s.ghost.checkedAt ≤ s.ghost.nextAbs + b.burstBytes
  inClip : ∀ j, s.pc = .copy j → j < modelSamplesPerClip
  copied : ∀ j < samplesDone s.pc, s.nnomInputData j = windowSample b stream s j

theorem LoopInv.positions (h : LoopInv b stream s) : Positions b s :=
  ⟨h.next, h.clip_le, h.ahead, h.reached⟩

theorem LoopInv.init (b : Build) (stream : ℕ → BitVec 8) : LoopInv b stream (Sys.init b) := by
  obtain ⟨hn, hclip, hahead, hreached⟩ := Positions.init b
  refine ⟨hn, hclip, hahead, hreached, ?_, ?_, ?_, ?_⟩
  · intro hpc
    cases hpc
  · rintro (hpc | ⟨j, hpc⟩) <;> cases hpc
  · intro j hpc
    cases hpc
  · intro j hj
    exact absurd hj (Nat.not_lt_zero j)

theorem LoopInv.word (h : LoopInv b stream s) : LoopInv b stream (s.word b stream) := by
  rw [Sys.word]
  split
  · exact ⟨h.next, h.clip_le, h.ahead, h.reached, h.checked, h.resynced, h.inClip, h.copied⟩
  · exact h

theorem LoopInv.irq (h : LoopInv b stream s) : LoopInv b stream (s.irq b) := by
  obtain ⟨hn, hclip, hahead, hreached⟩ := h.positions.irq
  rw [Sys.irq] at hn hclip hahead hreached ⊢
  split
  · rename_i hlast
    rw [if_pos hlast] at hn hclip hahead hreached
    refine ⟨hn, hclip, hahead, hreached, ?_, h.resynced, h.inClip, h.copied⟩
    intro hpc
    exact le_trans (h.checked hpc) (by simp only; omega)
  · exact h

/-- During the copy the window is still in the ring. -/
theorem LoopInv.in_ring (h : LoopInv b stream s) (ht : Timely b s) (hl : LagOk b s) {j : ℕ}
    (hpc : s.pc = .copy j) : s.captured + b.clip ≤ s.ghost.nextAbs + ringSamples := by
  cases hr : s.ghost.resynced
  · exact hl j hpc hr
  · have h1 := ht (Or.inr ⟨j, hpc⟩)
    have h2 := h.resynced (Or.inr ⟨j, hpc⟩) hr
    have h3 := b.clip_le
    simp only [ringSamples]
    omega

/-- A sample of the window is read before it is overwritten. -/
theorem LoopInv.sample (hw : HwInv b stream s) (h : LoopInv b stream s) (ht : Timely b s)
    (hl : LagOk b s) {j : ℕ} (hpc : s.pc = .copy j) :
    s.audioRing (s.ringIdx b j) = windowSample b stream s j := by
  have hreached := h.reached (by simp [hpc])
  have hring := h.in_ring ht hl hpc
  have hj := Nat.mul_lt_mul_of_pos_right (h.inClip j hpc)
    (by rcases b.decimate_eq with hd | hd <;> omega : 0 < b.decimate)
  have hclip := h.clip_le
  rw [ringIdx_eq h.next hclip]
  rw [captured] at hring
  apply hw.holds
  · rw [captured]
    have : b.clip = modelSamplesPerClip * b.decimate := rfl
    omega
  · rw [captured]
    omega

/-- Only the check leads to `resync`. -/
theorem LoopInv.cpu_checked (hw : HwInv b stream s) (h : LoopInv b stream s) :
    (s.cpu b).pc = .resync →
      (s.cpu b).ghost.checkedAt ≤ (s.cpu b).ghost.published + b.burstBytes := by
  rw [Sys.cpu]
  cases hpc : s.pc
  case wait =>
    simp only
    split
    · exact h.checked
    · rintro ⟨⟩
  case check =>
    intro _
    have := hw.inBurst
    simp only [captured, Build.burstBytes]
    omega
  case copy j =>
    intro hc
    simp only at hc
    split at hc <;> cases hc
  case iterStart | resync | infer | advance =>
    rintro ⟨⟩

/-- The copy begins with a check or at `resync`. -/
theorem LoopInv.cpu_resynced (h : LoopInv b stream s) :
    (s.cpu b).Copying → (s.cpu b).ghost.resynced = true →
      (s.cpu b).ghost.checkedAt ≤ (s.cpu b).ghost.nextAbs + b.burstBytes := by
  rw [Sys.cpu]
  cases hpc : s.pc
  case wait =>
    simp only
    split
    · exact h.resynced
    · rintro (hc | ⟨j, hc⟩) <;> cases hc
  case check =>
    intro _ hfalse
    cases hfalse
  case resync =>
    intro _ _
    exact h.checked hpc
  case copy j =>
    intro _ hres'
    exact h.resynced (Or.inr ⟨j, hpc⟩) hres'
  case iterStart | infer | advance =>
    rintro (hc | ⟨j, hc⟩) <;> cases hc

/-- The copy stays within the clip. -/
theorem LoopInv.cpu_inClip (h : LoopInv b stream s) :
    ∀ j, (s.cpu b).pc = .copy j → j < modelSamplesPerClip := by
  rw [Sys.cpu]
  cases hpc : s.pc
  case wait =>
    simp only
    split
    · exact h.inClip
    · intro j hc
      cases hc
  case check =>
    intro j hc
    simp only at hc
    split at hc <;> cases hc
    decide
  case resync =>
    intro j hc
    cases hc
    decide
  case copy j =>
    intro i hc
    simp only at hc
    split at hc
    · cases hc
      assumption
    · cases hc
  case iterStart | infer | advance =>
    intro j hc
    cases hc

/-- The copy adds one sample. -/
theorem LoopInv.cpu_copied (hw : HwInv b stream s) (h : LoopInv b stream s) (ht : Timely b s)
    (hl : LagOk b s) : ∀ j < samplesDone (s.cpu b).pc,
      (s.cpu b).nnomInputData j = windowSample b stream (s.cpu b) j := by
  rw [Sys.cpu]
  cases hpc : s.pc
  case wait =>
    simp only
    split
    · exact h.copied
    · intro j hj
      exact absurd hj (Nat.not_lt_zero j)
  case check =>
    intro j hj
    simp only at hj
    split at hj <;> exact absurd hj (Nat.not_lt_zero j)
  case copy j =>
    have hj := h.inClip j hpc
    have hnew : ∀ i < j + 1,
        Function.update s.nnomInputData j (s.audioRing (s.ringIdx b j)) i =
          windowSample b stream s i := by
      intro i hi
      by_cases hij : i = j
      · rw [hij, Function.update_self]
        exact h.sample hw ht hl hpc
      · rw [Function.update_of_ne hij]
        apply h.copied
        rw [hpc, samplesDone]
        omega
    intro i hi
    apply hnew
    simp only at hi
    split at hi
    · exact hi
    · simp only [samplesDone] at hi
      omega
  case iterStart | resync | infer | advance =>
    intro j hj
    exact absurd hj (Nat.not_lt_zero j)

theorem LoopInv.cpu (hw : HwInv b stream s) (h : LoopInv b stream s) (ht : Timely b s)
    (hl : LagOk b s) : LoopInv b stream (s.cpu b) := by
  obtain ⟨hn', hclip', hahead', hreached'⟩ := h.positions.cpu hw
  exact ⟨hn', hclip', hahead', hreached', h.cpu_checked hw, h.cpu_resynced, h.cpu_inClip,
    h.cpu_copied hw ht hl⟩

theorem LoopInv.step (hw : HwInv b stream s) (h : LoopInv b stream s) (ht : Timely b s)
    (hl : LagOk b s) (e : Event) : LoopInv b stream (s.step b stream e) := by
  cases e
  case word => exact h.word
  case irq => exact h.irq
  case cpu => exact h.cpu hw ht hl

/-! ## Bursts and undisturbed stretches -/

theorem not_copying (h : s.pc = .wait ∨ s.pc = .infer) : ¬ s.Copying := by
  rintro (hc | ⟨j, hc⟩) <;> rw [hc] at h <;> rcases h with h | h <;> cases h

/-- Bursts, each followed by its handler, with the main loop held up. -/
def bursts (b : Build) (n : ℕ) : Event := if n % (b.burstWords + 1) = b.burstWords then .irq else .word

/-- Bursts move the capture on and leave the main loop where it is. -/
structure AfterBursts (b : Build) (s t : Sys) (n : ℕ) : Prop where
  pc : t.pc = s.pc
  inBurst : t.inBurst = n % (b.burstWords + 1)
  published : t.ghost.published = s.ghost.published + b.burstBytes * (n / (b.burstWords + 1))
  nextAbs : t.ghost.nextAbs = s.ghost.nextAbs
  bytesAtNext : t.bytesAtNextInference = s.bytesAtNextInference
  iterStartBw : t.iterStartBw = s.iterStartBw

theorem afterBursts (h0 : s.inBurst = 0) (n : ℕ) :
    AfterBursts b s (trace (step b stream) s (bursts b) n) n := by
  induction n with
  | zero => exact ⟨rfl, h0, by simp, rfl, rfl, rfl⟩
  | succ n ih =>
    have hpos : 0 < b.burstWords + 1 := Nat.succ_pos _
    have hmod := Nat.mod_lt n hpos
    have hdm := Nat.div_add_mod n (b.burstWords + 1)
    have hin := ih.inBurst
    rw [trace_succ]
    by_cases hlast : n % (b.burstWords + 1) = b.burstWords
    · -- the handler ends a burst
      have hnext : n + 1 = (b.burstWords + 1) * (n / (b.burstWords + 1) + 1) := by
        rw [Nat.mul_succ]
        omega
      rw [bursts, if_pos hlast, Sys.step, Sys.irq, if_pos (hin.trans hlast)]
      refine ⟨ih.pc, ?_, ?_, ih.nextAbs, ih.bytesAtNext, ih.iterStartBw⟩
      · rw [hnext, Nat.mul_mod_right]
      · rw [hnext, Nat.mul_div_cancel_left _ hpos]
        simp only [ih.published]
        ring
    · have hnext : n + 1 = (b.burstWords + 1) * (n / (b.burstWords + 1)) +
          (n % (b.burstWords + 1) + 1) := by omega
      have hlt : n % (b.burstWords + 1) + 1 < b.burstWords + 1 := by omega
      rw [bursts, if_neg hlast, Sys.step, Sys.word, if_pos (by omega)]
      refine ⟨ih.pc, ?_, ?_, ih.nextAbs, ih.bytesAtNext, ih.iterStartBw⟩
      · rw [hnext, Nat.mul_add_mod, Nat.mod_eq_of_lt hlt, ← hin]
      · rw [hnext, Nat.mul_add_div hpos, Nat.div_eq_of_lt hlt, Nat.add_zero]
        exact ih.published

/-- An undisturbed stretch captures nothing. -/
theorem cpu_captured (n : ℕ) :
    let t := trace (step b stream) s (fun _ => .cpu) n
    t.captured = s.captured ∧ t.inBurst = s.inBurst ∧ t.audioRing = s.audioRing := by
  have hone : ∀ u : Sys, (u.cpu b).captured = u.captured ∧ (u.cpu b).inBurst = u.inBurst ∧
      (u.cpu b).audioRing = u.audioRing := by
    intro u
    unfold cpu
    cases u.pc
    case wait =>
      simp only
      split <;> exact ⟨rfl, rfl, rfl⟩
    all_goals exact ⟨rfl, rfl, rfl⟩
  induction n with
  | zero => exact ⟨rfl, rfl, rfl⟩
  | succ n ih =>
    obtain ⟨h1, h2, h3⟩ := ih
    obtain ⟨g1, g2, g3⟩ := hone (trace (step b stream) s (fun _ => .cpu) n)
    exact ⟨g1.trans h1, g2.trans h2, g3.trans h3⟩

/-- Nothing arrives during a copy that an undisturbed stretch begins. -/
theorem cpu_checkedAt (hs : ¬ s.Copying) (n : ℕ) :
    (trace (step b stream) s (fun _ => .cpu) n).Copying →
      (trace (step b stream) s (fun _ => .cpu) n).ghost.checkedAt =
        (trace (step b stream) s (fun _ => .cpu) n).captured := by
  induction n with
  | zero => exact fun hc => absurd hc hs
  | succ n ih =>
    rw [trace_succ]
    generalize trace (step b stream) s (fun _ => .cpu) n = t at ih ⊢
    unfold step cpu
    cases hpc : t.pc
    case wait =>
      simp only
      split
      · exact ih
      · rintro (hc | ⟨j, hc⟩) <;> cases hc
    case check =>
      intro _
      rfl
    case resync =>
      intro _
      exact ih (Or.inl hpc)
    case copy j =>
      intro _
      exact ih (Or.inr ⟨j, hpc⟩)
    all_goals
      rintro (hc | ⟨j, hc⟩) <;> cases hc

theorem timely_cpu (hb : b.burstBytes < 384) (hs : ¬ s.Copying) (n : ℕ) :
    Timely b (trace (step b stream) s (fun _ => .cpu) n) := by
  intro hc
  rw [cpu_checkedAt hs n hc]
  omega

/-- The copy, undisturbed: sample by sample out of the ring. -/
theorem cpu_copy (hpc : s.pc = .copy 0) (k : ℕ) (hk : k ≤ modelSamplesPerClip) :
    let t := trace (step b stream) s (fun _ => .cpu) k
    t.pc = (if k < modelSamplesPerClip then .copy k else .infer) ∧
      t.bytesAtNextInference = s.bytesAtNextInference ∧ t.ghost.nextAbs = s.ghost.nextAbs ∧
      t.iterStartBw = s.iterStartBw ∧
      ∀ i < k, t.nnomInputData i = s.audioRing (s.ringIdx b i) := by
  induction k with
  | zero => exact ⟨hpc, rfl, rfl, rfl, fun i hi => absurd hi (Nat.not_lt_zero i)⟩
  | succ k ih =>
    obtain ⟨hp, hb, hn, hi, hd⟩ := ih (by omega)
    have hring := (@cpu_captured b stream s k).2.2
    intro t
    have ht : t = (trace (step b stream) s (fun _ => .cpu) k).cpu b := rfl
    generalize trace (step b stream) s (fun _ => .cpu) k = u at hp hb hn hi hd hring ht
    rw [if_pos (by omega : k < modelSamplesPerClip)] at hp
    rw [ht, cpu, hp]
    refine ⟨rfl, hb, hn, hi, ?_⟩
    intro i hik
    by_cases hie : i = k
    · rw [hie]
      simp only [Function.update_self, ringIdx, hb, hring]
    · simp only [Function.update_of_ne hie]
      exact hd i (by omega)

/-- The wait is over. -/
theorem cpu_start (hpc : s.pc = .wait) (hready : 0 ≤ s.lag) :
    s.cpu b = { s with pc := .iterStart } := by
  unfold cpu
  simp only [hpc, if_neg (not_lt.mpr hready)]

/-- The check passes. -/
theorem cpu_check (hpc : s.pc = .wait) (hready : 0 ≤ s.lag) (hpass : s.lag ≤ b.clip) :
    trace (step b stream) s (fun _ => .cpu) 3 =
      { s with iterStartBw := s.bytesWritten, pc := .copy 0
               ghost := { s.ghost with checkedAt := s.captured, resynced := false } } := by
  show ((s.cpu b).cpu b).cpu b = _
  rw [cpu_start hpc hready]
  unfold cpu
  simp only [lag, captured, gt_iff_lt] at hpass ⊢
  rw [if_neg (not_lt.mpr hpass)]

/-- An undisturbed iteration up to the end of the copy, when the window is ready and the check
passes. -/
theorem cpu_window (hpc : s.pc = .wait) (hready : 0 ≤ s.lag) (hpass : s.lag ≤ b.clip) :
    let t := trace (step b stream) s (fun _ => .cpu) 8003
    t.pc = .infer ∧ t.bytesAtNextInference = s.bytesAtNextInference ∧
      t.ghost.nextAbs = s.ghost.nextAbs ∧ t.iterStartBw = s.bytesWritten ∧
      ∀ i < modelSamplesPerClip, t.nnomInputData i = s.audioRing (s.ringIdx b i) := by
  intro t
  have ht : t = trace (step b stream) (trace (step b stream) s (fun _ => .cpu) 3) (fun _ => .cpu)
      modelSamplesPerClip := trace_add _ _ _ 3 modelSamplesPerClip
  rw [cpu_check hpc hready hpass] at ht
  rw [ht]
  exact cpu_copy rfl modelSamplesPerClip (le_refl _)

/-- The end of an iteration. -/
theorem cpu_advance (hpc : s.pc = .infer) :
    (s.cpu b).cpu b =
      { s with
        bytesAtNextInference := s.bytesAtNextInference + b.stepBytes (s.bytesWritten - s.iterStartBw)
        pc := .wait
        ghost := { s.ghost with
          nextAbs := s.ghost.nextAbs + (b.stepBytes (s.bytesWritten - s.iterStartBw)).toNat } } := by
  unfold cpu
  simp only [hpc]

/-- A run that begins with bursts. -/
theorem run_bursts {e : ℕ → Event} {N n : ℕ} (he : ∀ k < N, e k = bursts b k) (hn : n ≤ N) :
    AfterBursts b (Sys.init b) (run b stream e n) n := by
  have hrun : run b stream e n = trace (step b stream) (Sys.init b) (bursts b) n :=
    trace_congr (fun k hk => he k (by omega))
  rw [hrun]
  exact afterBursts rfl n

/-! ## The check for audio loss -/

/-- A check that does not resynchronise leaves room in the ring for what may still arrive: at most
380 bytes, less a burst. -/
def InSlack (b : Build) (s : Sys) : Prop :=
  s.pc = .check → ¬ s.lag > b.clip →
    s.captured + b.clip + 380 ≤ s.ghost.nextAbs + ringSamples + b.burstBytes

/-- During the copy: what `InSlack` has left behind. -/
def Guarded (b : Build) (s : Sys) : Prop :=
  ∀ j, s.pc = .copy j → s.ghost.resynced = false →
    4 ∣ s.ghost.checkedAt ∧
      s.ghost.checkedAt + b.clip + 380 ≤ s.ghost.nextAbs + ringSamples + b.burstBytes

/-- The capture moves on by words. -/
theorem HwInv.four_dvd (h : HwInv b stream s) : 4 ∣ s.captured :=
  Nat.dvd_add ((Nat.dvd_mul_right 4 b.burstWords).trans h.whole) (Nat.dvd_mul_right 4 _)

theorem Guarded.step (hw : HwInv b stream s) (hg : Guarded b s) (hs : InSlack b s) (e : Event) :
    Guarded b (s.step b stream e) := by
  cases e
  case word =>
    rw [Sys.step, Sys.word]
    split <;> exact hg
  case irq =>
    rw [Sys.step, Sys.irq]
    split <;> exact hg
  case cpu =>
    unfold Sys.step Sys.cpu
    cases hpc : s.pc
    case wait =>
      simp only
      split
      · exact hg
      · intro j hc
        cases hc
    case check =>
      intro j hc _
      simp only at hc
      split at hc
      · cases hc
      · rename_i hpass
        exact ⟨hw.four_dvd, hs hpc hpass⟩
    case resync =>
      intro j _ hres
      cases hres
    case copy j =>
      intro k _ hres
      exact hg j hpc hres
    all_goals
      intro j hc
      cases hc

/-- The room is enough. -/
theorem Guarded.lagOk (hw : HwInv b stream s) (hg : Guarded b s) (ht : Timely b s) : LagOk b s := by
  intro j hpc hres
  obtain ⟨h4, hroom⟩ := hg j hpc hres
  have harrive := ht (Or.inr ⟨j, hpc⟩)
  have hcap := hw.four_dvd
  have hburst : 4 ∣ b.burstBytes := Nat.dvd_mul_right 4 _
  omega

/-! ## Decimation by 1 -/

/-- At the check the counters are not half their range apart. -/
def ShortLag (s : Sys) : Prop := s.pc = .check → s.ghost.published < s.ghost.nextAbs + 2 ^ 31

/-- With a decimation of 1 the threshold of the check leaves room. -/
theorem LoopInv.inSlack (hw : HwInv b stream s) (h : LoopInv b stream s) (hd : b.decimate = 1)
    (hs : ShortLag s) : InSlack b s := by
  intro hpc hpass
  have hclip : b.clip = 8000 := by
    rw [Build.clip, hd]
    rfl
  have hin := hw.inBurst
  have hreached := h.reached (by simp [hpc])
  have hshort := hs hpc
  have hlag : s.lag = (s.ghost.published : ℤ) - s.ghost.nextAbs := by
    rw [lag_eq hw.counted h.next, Int.bmod_eq_of_le] <;> omega
  rw [hlag, hclip] at hpass
  simp only [captured, Build.burstBytes, hclip, ringSamples]
  omega

/-- The invariants hold in every state of a run whose copies are timely and whose checks leave
room. -/
theorem inv_run {e : ℕ → Event} (ht : ∀ n, Timely b (run b stream e n))
    (hs : ∀ n, HwInv b stream (run b stream e n) → LoopInv b stream (run b stream e n) →
      InSlack b (run b stream e n)) (n : ℕ) :
    HwInv b stream (run b stream e n) ∧ LoopInv b stream (run b stream e n) ∧
      Guarded b (run b stream e n) := by
  refine trace_invariant (fun s => HwInv b stream s ∧ LoopInv b stream s ∧ Guarded b s)
    ⟨HwInv.init b stream, LoopInv.init b stream, ?_⟩ ?_ n
  · intro j hc
    cases hc
  · rintro n ⟨hw, h, hg⟩
    have hl := hg.lagOk hw (ht n)
    exact ⟨hw.step (e n), h.step hw (ht n) hl (e n), hg.step hw (hs n hw h) (e n)⟩

/-- **Windows are intact** in every run whose copies are timely, if every check for audio loss that
does not resynchronise leaves room in the ring for what may arrive during the copy. With a
decimation of 1 it always does, as long as no check finds the counters half their range apart. -/
theorem window_intact (b : Build) (stream : ℕ → BitVec 8) (e : ℕ → Event)
    (ht : ∀ n, Timely b (run b stream e n)) :
    ((∀ n, InSlack b (run b stream e n)) → ∀ n, Intact b stream (run b stream e n)) ∧
      (b.decimate = 1 → (∀ n, ShortLag (run b stream e n)) →
        ∀ n, Intact b stream (run b stream e n)) := by
  have hintact : (∀ n, HwInv b stream (run b stream e n) → LoopInv b stream (run b stream e n) →
      InSlack b (run b stream e n)) → ∀ n, Intact b stream (run b stream e n) := by
    intro hs n hpc j hj
    obtain ⟨-, h, -⟩ := inv_run ht hs n
    apply h.copied
    rw [hpc]
    exact hj
  constructor
  · intro hs
    exact hintact (fun n _ _ => hs n)
  · intro hd hs
    exact hintact (fun n hw h => h.inSlack hw hd (hs n))

/-! ### One clip, decimated by 1 -/

section

variable (stream)

/-- A build without decimation, bursts of 64 bytes and windows that do not overlap. -/
def plainBuild : Build where
  decimate := 1
  decimate_eq := Or.inl rfl
  burstWords := 16
  burst_pos := by decide
  burst_dvd := by decide
  policy := .noOverlap

/-- 125 bursts fill a clip of 8000 bytes, then the main loop runs alone. -/
def oneClip (n : ℕ) : Event := if n < 2125 then bursts plainBuild n else .cpu

theorem oneClip_bursts {n : ℕ} (hn : n ≤ 2125) :
    AfterBursts plainBuild (Sys.init plainBuild) (run plainBuild stream oneClip n) n :=
  run_bursts (fun _ hk => if_pos hk) hn

theorem oneClip_cpu (k : ℕ) :
    run plainBuild stream oneClip (2125 + k) =
      trace (step plainBuild stream) (run plainBuild stream oneClip 2125) (fun _ => .cpu) k :=
  trace_stretch fun i _ => if_neg (by omega)

theorem oneClip_timely (n : ℕ) : Timely plainBuild (run plainBuild stream oneClip n) := by
  have hnot : ∀ m ≤ 2125, ¬ (run plainBuild stream oneClip m).Copying := by
    intro m hm
    exact not_copying (Or.inl (oneClip_bursts stream hm).pc)
  rcases Nat.le_total n 2125 with hn | hn
  · exact fun hc => absurd hc (hnot n hn)
  · obtain ⟨k, rfl⟩ := Nat.exists_eq_add_of_le hn
    rw [oneClip_cpu]
    exact timely_cpu (by decide) (hnot 2125 (le_refl _)) k

/-- No more than a clip is captured. -/
theorem oneClip_published (n : ℕ) :
    (run plainBuild stream oneClip n).ghost.published ≤ 8000 := by
  have hbursts : ∀ m ≤ 2125, (run plainBuild stream oneClip m).captured ≤ 8000 := by
    intro m hm
    have h := oneClip_bursts stream hm
    have hp : (run plainBuild stream oneClip m).ghost.published = 0 + 64 * (m / 17) := h.published
    have hi : (run plainBuild stream oneClip m).inBurst = m % 17 := h.inBurst
    unfold captured
    omega
  have hcaptured : (run plainBuild stream oneClip n).captured ≤ 8000 := by
    rcases Nat.le_total n 2125 with hn | hn
    · exact hbursts n hn
    · obtain ⟨k, rfl⟩ := Nat.exists_eq_add_of_le hn
      rw [oneClip_cpu, (cpu_captured k).1]
      exact hbursts 2125 (le_refl _)
  exact le_trans (Nat.le_add_right _ _) hcaptured

/-- The main loop reaches the end of a copy, and the window is the first second of the stream. -/
theorem window_intact_oneClip :
    let s := run plainBuild (BitVec.ofNat 8) oneClip (2125 + 8003)
    s.pc = .infer ∧ Intact plainBuild (BitVec.ofNat 8) s := by
  constructor
  · have h := oneClip_bursts (BitVec.ofNat 8) (le_refl 2125)
    have hlag : (run plainBuild (BitVec.ofNat 8) oneClip 2125).lag = 0 := by
      rw [lag, (hwInv_run oneClip 2125).counted, h.bytesAtNext, h.published]
      rfl
    rw [oneClip_cpu]
    exact (cpu_window h.pc (by rw [hlag]) (by rw [hlag]; exact Int.natCast_nonneg _)).1
  · refine (window_intact plainBuild (BitVec.ofNat 8) oneClip
      (oneClip_timely (BitVec.ofNat 8))).2 rfl ?_ _
    intro n _
    have := oneClip_published (BitVec.ofNat 8) n
    omega

/-! ### An iteration longer than a clip, decimated by 2 -/

/-- A build whose receiver runs raw, with bursts of 128 bytes and a step as long as the
iteration. -/
def rawBuild : Build where
  decimate := 2
  decimate_eq := Or.inr rfl
  burstWords := 32
  burst_pos := by decide
  burst_dvd := by decide
  policy := .dynamic 320

/-- 125 bursts fill a clip of 16000 bytes; the main loop copies it; 160 bursts arrive while it is
inferring; then it runs alone. -/
def lateIteration (n : ℕ) : Event :=
  if n < 4125 then bursts rawBuild n
  else if n < 12128 then .cpu
  else if n < 17408 then bursts rawBuild (n - 12128)
  else .cpu

/-- The first window is complete. -/
theorem late_first {n : ℕ} (hn : n ≤ 4125) :
    AfterBursts rawBuild (Sys.init rawBuild) (run rawBuild stream lateIteration n) n :=
  run_bursts (fun _ hk => if_pos hk) hn

theorem late_copy {k : ℕ} (hk : k ≤ 8003) :
    run rawBuild stream lateIteration (4125 + k) =
      trace (step rawBuild stream) (run rawBuild stream lateIteration 4125) (fun _ => .cpu) k := by
  refine trace_stretch fun i hi => ?_
  unfold lateIteration
  rw [if_neg (by omega), if_pos (by omega)]

theorem late_bursts {k : ℕ} (hk : k ≤ 5280) :
    run rawBuild stream lateIteration (12128 + k) =
      trace (step rawBuild stream) (run rawBuild stream lateIteration 12128) (bursts rawBuild) k := by
  refine trace_stretch fun i hi => ?_
  unfold lateIteration
  rw [if_neg (by omega), if_neg (by omega), if_pos (by omega), Nat.add_sub_cancel_left]

theorem late_rest {N : ℕ} (hN : 17408 ≤ N) (k : ℕ) :
    run rawBuild stream lateIteration (N + k) =
      trace (step rawBuild stream) (run rawBuild stream lateIteration N) (fun _ => .cpu) k := by
  refine trace_stretch fun i _ => ?_
  unfold lateIteration
  rw [if_neg (by omega), if_neg (by omega), if_neg (by omega)]

/-- The first window has been copied. -/
theorem late_infer :
    let s := run rawBuild stream lateIteration 12128
    s.pc = .infer ∧ s.inBurst = 0 ∧ s.captured = 16000 ∧ s.ghost.nextAbs = 16000 ∧
      s.bytesAtNextInference = 16000 ∧ s.iterStartBw = 16000 := by
  have h := late_first stream (le_refl 4125)
  have hcount := (@hwInv_run rawBuild stream lateIteration 4125).counted
  rw [h.published] at hcount
  have hlag : (run rawBuild stream lateIteration 4125).lag = 0 := by
    rw [lag, hcount, h.bytesAtNext]
    rfl
  obtain ⟨hpc, hb, hn, hi, -⟩ := @cpu_window rawBuild stream _ h.pc (by rw [hlag])
    (by rw [hlag]; exact Int.natCast_nonneg _)
  obtain ⟨hcap, hin, -⟩ := @cpu_captured rawBuild stream
    (run rawBuild stream lateIteration 4125) 8003
  have hsum : 4125 + 8003 = 12128 := rfl
  have hrun := late_copy stream (le_refl 8003)
  rw [hsum] at hrun
  simp only [hrun]
  rw [hpc, hin, hcap, hn, hb, hi, captured, hcount, h.inBurst, h.published, h.nextAbs,
    h.bytesAtNext]
  exact ⟨rfl, rfl, rfl, rfl, rfl, rfl⟩

/-- The iteration has taken longer than a clip: the next window begins at byte 16000, and 36480
bytes have been captured. -/
theorem late_second :
    let s := run rawBuild stream lateIteration 17410
    s.pc = .wait ∧ s.captured = 36480 ∧ s.ghost.nextAbs = 32000 ∧
      s.bytesAtNextInference = 32000 ∧ s.bytesWritten = 36480 := by
  obtain ⟨hpc, hin, hcap, hn, hb, hi⟩ := late_infer stream
  have h := @afterBursts rawBuild stream _ hin 5280
  have hsum : 12128 + 5280 = 17408 := rfl
  have hrun := late_bursts stream (le_refl 5280)
  rw [← hrun, hsum] at h
  have hcount := (@hwInv_run rawBuild stream lateIteration 17408).counted
  have hpub : (run rawBuild stream lateIteration 17408).ghost.published = 36480 := by
    have hin0 : (run rawBuild stream lateIteration 12128).ghost.published = 16000 := by
      rw [captured, hin, Nat.mul_zero, Nat.add_zero] at hcap
      exact hcap
    rw [h.published, hin0]
    decide
  have hend : 17408 + 2 = 17410 := rfl
  have htwo := late_rest stream (le_refl 17408) 2
  rw [hend, trace_succ, trace_succ, trace_zero] at htwo
  have hpc' := h.pc.trans hpc
  have hin' := h.inBurst
  have hn' := h.nextAbs.trans hn
  have hb' := h.bytesAtNext.trans hb
  have hi' := h.iterStartBw.trans hi
  rw [hpub] at hcount
  simp only [step] at htwo
  rw [cpu_advance hpc'] at htwo
  simp only [htwo, captured, hpub, hn', hb', hin', hcount, hi']
  exact ⟨trivial, by decide, by decide, by decide, rfl⟩

theorem late_timely (n : ℕ) : Timely rawBuild (run rawBuild stream lateIteration n) := by
  have hburst : rawBuild.burstBytes < 384 := by decide
  have hwait : ∀ m ≤ 4125, ¬ (run rawBuild stream lateIteration m).Copying := by
    intro m hm
    exact not_copying (Or.inl (late_first stream hm).pc)
  have hinfer : ∀ k ≤ 5280, ¬ (run rawBuild stream lateIteration (12128 + k)).Copying := by
    intro k hk
    rw [late_bursts stream hk]
    obtain ⟨hpc, hin, -⟩ := late_infer stream
    exact not_copying (Or.inr ((afterBursts hin k).pc.trans hpc))
  rcases Nat.le_total n 4125 with h1 | h1
  · exact fun hc => absurd hc (hwait n h1)
  rcases Nat.le_total n 12128 with h2 | h2
  · obtain ⟨k, rfl⟩ := Nat.exists_eq_add_of_le h1
    rw [late_copy stream (by omega)]
    exact timely_cpu hburst (hwait 4125 (le_refl _)) k
  rcases Nat.le_total n 17408 with h3 | h3
  · obtain ⟨k, rfl⟩ := Nat.exists_eq_add_of_le h2
    exact fun hc => absurd hc (hinfer k (by omega))
  · obtain ⟨k, rfl⟩ := Nat.exists_eq_add_of_le h3
    rw [late_rest stream (le_refl _)]
    exact timely_cpu hburst (hinfer 5280 (le_refl _)) k

/-- A stream with a single sample that is not zero. -/
def clickAt32384 (i : ℕ) : BitVec 8 := if i = 32384 then 1 else 0

/-- **A stale window**: the check lets a window pass that begins 20480 bytes before the end of the
capture, and the first sample copied is byte 32384 of the stream, not byte 16000. -/
theorem stale_window :
    (∀ n, Timely rawBuild (run rawBuild clickAt32384 lateIteration n)) ∧
      ¬ ∀ n, Intact rawBuild clickAt32384 (run rawBuild clickAt32384 lateIteration n) := by
  refine ⟨late_timely clickAt32384, ?_⟩
  intro hintact
  obtain ⟨hpc, hcap, hn, hb, hbw⟩ := late_second clickAt32384
  have hlag : (run rawBuild clickAt32384 lateIteration 17410).lag = 4480 := by
    rw [lag, hb, hbw]
    decide
  obtain ⟨hpc', hb', hn', -, hcopy⟩ := @cpu_window rawBuild clickAt32384 _ hpc
    (by rw [hlag]; decide) (by rw [hlag]; decide)
  have hrun := late_rest clickAt32384 (by decide : 17408 ≤ 17410) 8003
  have hbad := hintact (17410 + 8003)
  rw [hrun] at hbad
  have hsample := (hbad hpc' 0 (by decide)).symm.trans (hcopy 0 (by decide))
  -- the slot of byte 16000 has been reused
  have hidx : (run rawBuild clickAt32384 lateIteration 17410).ringIdx rawBuild 0 =
      16000 % ringSamples := by
    rw [ringIdx, hb]
    decide
  have hring := (@hwInv_run rawBuild clickAt32384 lateIteration 17410).holds.overwritten
    (by rw [hcap]; decide : 16000 + 1 * ringSamples < _) (by rw [hcap]; decide)
  rw [hidx, hring, windowSample, hn', hn] at hsample
  exact absurd hsample (by decide)

end

end Sys

end KwsSoc.Firmware.Capture
