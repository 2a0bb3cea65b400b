import KwsSoc.Firmware.Window

/-! # The dynamic step and what it leaves out

The dynamic step counts the bytes from the start of an iteration (`iter_start_bw`) to the read of
`bytes_written` near its end (`bw_now`). What is counted after that read, while the main loop prints
and waits, is in no step and stays in the lag for ever. `no_drift` has the bound of the lag for the
runs in which no burst comes at such a time, unless the main loop waits for it or the minimum step
has made room for it; `burst_in_the_gap` is a run that drifts until the check for audio loss fires,
though no iteration takes longer than a clip. -/

namespace KwsSoc.Firmware.Capture.Sys

open SyncMachine

variable {b : Build} {stream : ℕ → BitVec 8} {s s₀ : Sys} {minStep : BitVec 32}

/-! ## Iterations of a run -/

section

variable (b : Build) (stream : ℕ → BitVec 8) (e : ℕ → Event)

/-- Event `n` is the read of `iter_start_bw`. -/
def StartsAt (n : ℕ) : Prop := e n = .cpu ∧ (run b stream e n).pc = .iterStart

/-- The iterations that `n` and `m` start follow each other. -/
structure Consecutive (n m : ℕ) : Prop where
  start : StartsAt b stream e n
  next : StartsAt b stream e m
  lt : n < m
  between : ∀ k, n < k → k < m → ¬ StartsAt b stream e k

/-- At most a clip is counted from one start of an iteration to the next. -/
def Paced : Prop :=
  ∀ n m, Consecutive b stream e n m →
    (run b stream e m).ghost.published ≤ (run b stream e n).ghost.published + b.clip

/-- An iteration has started before event `n`. -/
def Begun (n : ℕ) : Prop := ∃ k < n, StartsAt b stream e k

/-- Between the step of an iteration and the next start. -/
def InGap (s : Sys) : Prop := s.pc = .wait ∨ s.pc = .iterStart

/-- **A burst in time**, for a burst that event `n` counts. After a step, either the main loop waits
for it, or the bytes since the start of the iteration are with it no more than the minimum step.
Before the first start and before a check, it leaves no more than a clip to the end of the
window. -/
structure InTime (minStep : BitVec 32) (n : ℕ) : Prop where
  gap : Begun b stream e n → InGap (run b stream e n) →
    (run b stream e n).lag ≤ 0 ∨
      ((run b stream e n).bytesWritten - (run b stream e n).iterStartBw).toNat + b.burstBytes ≤
        min minStep.toNat b.clip
  first : ¬ Begun b stream e n → (run b stream e n).lag + b.burstBytes ≤ b.clip
  check : (run b stream e n).pc = .check → (run b stream e n).lag + b.burstBytes ≤ b.clip

end

/-! ## The dynamic step -/

/-- The dynamic step of an iteration no longer than a clip. -/
theorem toNat_stepBytes (hpol : b.policy = .dynamic minStep) {a : BitVec 32} (ha : a.toNat ≤ b.clip) :
    (b.stepBytes a).toNat = min (max a.toNat minStep.toNat) b.clip := by
  have hclip := b.toNat_clip
  rw [Build.stepBytes, hpol]
  simp only [gt_iff_lt, BitVec.lt_def, hclip]
  split <;> split <;> omega

/-! ## The lag -/

/-- How far the counted bytes are ahead of the end of the window, without wrap-around. -/
def ahead (s : Sys) : ℤ := (s.ghost.published : ℤ) - s.ghost.nextAbs

/-- A small lag is the true one. -/
theorem lag_eq_ahead (hw : HwInv b stream s) (hp : Positions b s) (h : s.ahead < 2 ^ 31) :
    s.lag = s.ahead := by
  have hlow := hp.ahead
  unfold ahead at h ⊢
  rw [lag_eq hw.counted hp.next, Int.bmod_eq_of_le] <;> omega

theorem ahead_nonneg (hp : Positions b s) (hpc : s.pc ≠ .wait) : 0 ≤ s.ahead := by
  have := hp.reached hpc
  unfold ahead
  omega

/-- **Invariant of an iteration** that has started in `s₀`. -/
structure Since (b : Build) (minStep : BitVec 32) (s₀ s : Sys) : Prop where
  later : s₀.ghost.published ≤ s.ghost.published
  start : s.iterStartBw = s₀.bytesWritten
  body : ¬ InGap s → s.ghost.nextAbs = s₀.ghost.nextAbs
  check : s.pc = .check → s.ahead ≤ b.clip
  no_resync : s.pc ≠ .resync
  gap : InGap s → s.ghost.published ≤ s₀.ghost.published + b.clip →
    s₀.ghost.nextAbs + min minStep.toNat b.clip ≤ s.ghost.nextAbs ∧
      (s.ahead ≤ s₀.ahead ∨
        s.ahead ≤ b.burstBytes ∧ s₀.ghost.published + b.burstBytes ≤ s.ghost.published)

/-- The bytes since the start of the iteration, as the program counts them. -/
theorem Since.toNat_sub (hw₀ : HwInv b stream s₀) (hw : HwInv b stream s) (h : Since b minStep s₀ s)
    (hle : s.ghost.published ≤ s₀.ghost.published + b.clip) :
    (s.bytesWritten - s.iterStartBw).toNat = s.ghost.published - s₀.ghost.published := by
  have hclip := b.clip_le
  have hlater := h.later
  rw [h.start, hw.counted, hw₀.counted, BitVec.toNat_sub, BitVec.toNat_ofNat, BitVec.toNat_ofNat]
  omega

theorem Since.word (h : Since b minStep s₀ s) : Since b minStep s₀ (s.word b stream) := by
  rw [Sys.word]
  split
  · exact ⟨h.later, h.start, h.body, h.check, h.no_resync, h.gap⟩
  · exact h

/-- A burst in time. -/
theorem Since.irq (hw₀ : HwInv b stream s₀) (hw : HwInv b stream s) (hp : Positions b s)
    (hle₀ : s₀.ahead ≤ b.clip) (h : Since b minStep s₀ s)
    (hgap : InGap s → s.lag ≤ 0 ∨
      (s.bytesWritten - s.iterStartBw).toNat + b.burstBytes ≤ min minStep.toNat b.clip)
    (hcheck : s.pc = .check → s.lag + b.burstBytes ≤ b.clip) (hlast : s.inBurst = b.burstWords) :
    Since b minStep s₀ (s.irq b) := by
  have hclip := b.clip_le
  have hburst := b.burstBytes_le
  have hlater := h.later
  simp only [ringSamples] at hburst
  rw [Sys.irq, if_pos hlast]
  refine ⟨by simp only; omega, h.start, h.body, ?_, h.no_resync, ?_⟩
  · intro hpc
    -- the check still sees less than a clip
    have hlag := lag_eq_ahead hw hp (by have := h.check hpc; omega)
    have := hcheck hpc
    rw [hlag] at this
    simp only [ahead] at this ⊢
    omega
  · intro hg hle
    have hle' : s.ghost.published ≤ s₀.ghost.published + b.clip := by
      simp only at hle
      omega
    -- in the gap the burst is waited for, or the minimum step has made room
    obtain ⟨hstep, hbound⟩ := h.gap hg hle'
    refine ⟨hstep, ?_⟩
    rcases hgap hg with hlag | hmin
    · -- the main loop waits for the burst
      rw [lag_eq_ahead hw hp (by omega)] at hlag
      refine Or.inr ⟨?_, by simp only; omega⟩
      simp only [ahead] at hlag ⊢
      omega
    · -- the minimum step has made room for it
      rw [h.toNat_sub hw₀ hw hle'] at hmin
      left
      simp only [ahead]
      omega

theorem not_inGap {p : Pc} (hpc : s.pc = p) (hwait : p ≠ .wait) (hstart : p ≠ .iterStart) :
    ¬ InGap s := by
  rintro (hc | hc)
  · exact hwait (hpc.symm.trans hc)
  · exact hstart (hpc.symm.trans hc)

/-- The step at the end of an iteration is at least what the iteration has counted so far. -/
theorem Since.advance (hpol : b.policy = .dynamic minStep) (hw₀ : HwInv b stream s₀)
    (hw : HwInv b stream s) (h : Since b minStep s₀ s) (hpc : s.pc = .advance) :
    Since b minStep s₀ (s.cpu b) := by
  have hnext := h.body (not_inGap hpc nofun nofun)
  unfold Sys.cpu
  rw [hpc]
  refine ⟨h.later, h.start, fun hg => absurd (Or.inl rfl) hg, nofun, nofun, fun _ hle => ?_⟩
  have hcounted := h.toNat_sub hw₀ hw hle
  simp only at hle
  have hstep := toNat_stepBytes hpol (by omega : (s.bytesWritten - s.iterStartBw).toNat ≤ b.clip)
  rw [hcounted] at hstep
  refine ⟨?_, Or.inl ?_⟩
  · simp only [hnext, hstep]
    omega
  · simp only [ahead, hnext, hstep]
    omega

theorem Since.cpu (hpol : b.policy = .dynamic minStep) (hw₀ : HwInv b stream s₀)
    (hw : HwInv b stream s) (hp : Positions b s) (h : Since b minStep s₀ s)
    (hpc : s.pc ≠ .iterStart) : Since b minStep s₀ (s.cpu b) := by
  cases hpc' : s.pc
  case iterStart => exact absurd hpc' hpc
  case resync => exact absurd hpc' h.no_resync
  case advance => exact h.advance hpol hw₀ hw hpc'
  all_goals
    unfold Sys.cpu
    rw [hpc']
  case wait =>
    simp only
    split
    · exact h
    · exact ⟨h.later, h.start, fun hg => absurd (Or.inr rfl) hg, nofun, nofun,
        fun _ => h.gap (Or.inl hpc')⟩
  case check =>
    -- the guard does not fire
    have hle := h.check hpc'
    have hclip := b.clip_le
    have hpass : ¬ s.lag > b.clip := by
      rw [lag_eq_ahead hw hp (by omega)]
      omega
    simp only [if_neg hpass]
    exact ⟨h.later, h.start, fun _ => h.body (not_inGap hpc' nofun nofun), nofun, nofun,
      fun hg => absurd hg (not_inGap rfl nofun nofun)⟩
  case copy j =>
    have hbody := h.body (not_inGap hpc' nofun nofun)
    simp only
    split
    · exact ⟨h.later, h.start, fun _ => hbody, nofun, nofun,
        fun hg => absurd hg (not_inGap rfl nofun nofun)⟩
    · exact ⟨h.later, h.start, fun _ => hbody, nofun, nofun,
        fun hg => absurd hg (not_inGap rfl nofun nofun)⟩
  case infer =>
    exact ⟨h.later, h.start, fun _ => h.body (not_inGap hpc' nofun nofun), nofun, nofun,
      fun hg => absurd hg (not_inGap rfl nofun nofun)⟩

/-! ## Runs -/

section

variable (b stream minStep) (e : ℕ → Event)

/-- **Invariant of a run**: no iteration has started and the window is no more than a clip behind,
or the last one started so, in event `n₀`. -/
def Progress (n : ℕ) : Prop :=
  (¬ Begun b stream e n ∧ InGap (run b stream e n) ∧ (run b stream e n).ahead ≤ b.clip) ∨
  ∃ n₀ < n, StartsAt b stream e n₀ ∧ (∀ k, n₀ < k → k < n → ¬ StartsAt b stream e k) ∧
    (run b stream e n₀).ahead ≤ b.clip ∧ Since b minStep (run b stream e n₀) (run b stream e n)

end

variable {e : ℕ → Event}

theorem Since.step {n₀ n : ℕ} (hpol : b.policy = .dynamic minStep)
    (hs : ¬ StartsAt b stream e n) (hbegun : Begun b stream e n)
    (hle₀ : (run b stream e n₀).ahead ≤ b.clip)
    (hin : e n = .irq → (run b stream e n).inBurst = b.burstWords → InTime b stream e minStep n)
    (h : Since b minStep (run b stream e n₀) (run b stream e n)) :
    Since b minStep (run b stream e n₀) (run b stream e (n + 1)) := by
  have hw₀ := @hwInv_run b stream e n₀
  have hw := @hwInv_run b stream e n
  have hp := @positions_run b stream e n
  have hrun : run b stream e (n + 1) = (run b stream e n).step b stream (e n) := rfl
  rw [hrun]
  cases he : e n
  case word => exact h.word
  case irq =>
    by_cases hlast : (run b stream e n).inBurst = b.burstWords
    · have hin' := hin he hlast
      exact h.irq hw₀ hw hp hle₀ (hin'.gap hbegun) hin'.check hlast
    · unfold Sys.step Sys.irq
      simp only
      rw [if_neg hlast]
      exact h
  case cpu => exact h.cpu hpol hw₀ hw hp (fun hpc => hs ⟨he, hpc⟩)

variable (stream)

theorem published_step (b : Build) (stream : ℕ → BitVec 8) (s : Sys) (e : Event) :
    s.ghost.published ≤ (s.step b stream e).ghost.published := by
  cases e
  case word =>
    unfold Sys.step Sys.word
    simp only
    split <;> exact le_refl _
  case irq =>
    unfold Sys.step Sys.irq
    simp only
    split
    · exact Nat.le_add_right _ _
    · exact le_refl _
  case cpu =>
    unfold Sys.step Sys.cpu
    simp only
    cases s.pc
    case wait =>
      simp only
      split <;> exact le_refl _
    all_goals exact le_refl _

end KwsSoc.Firmware.Capture.Sys
