import KwsSoc.Xip.FlashRun

/-! # The fetch chain

A line fetch runs through three state machines: `ro_dmc` raises `m_start`, the wrapper answers with
`start` and waits for `done`, the controller talks to the flash. Together they are in one of six
phases (`Phase`, `InPhase`), and `InPhase.clock_*` says for each phase which one the next clock
edge enters. -/

namespace KwsSoc.Xip

/-- Phases of a fetch: none, `m_start` up, `start` up, the controller running, its `done` up,
`m_done` up. -/
inductive Phase
  | idle | started | cmd | running | landed | done
  deriving DecidableEq

/-- The wrapper's state in a phase. -/
def Phase.WrapIn : Phase → WState → Prop
  | .idle, q | .started, q | .done, q => q = .idle
  | .cmd, q => q = .startCmd
  | .running, q => q = .waitLow ∨ q = .waitHigh
  | .landed, q => q = .waitHigh

/-- The controller in a phase. -/
def Phase.CtrlIn {w : ℕ} (T : TrstCycles) : Phase → FlashCtrl w → Prop
  | .running, r => r.InTick T ∧ r.doneReg = false
  | .landed, r => r.state = .idle ∧ r.doneReg = true
  | .idle, r | .started, r | .cmd, r | .done, r => r.state = .idle

namespace Slave

variable {w l : ℕ} {m : FlashMem} {T : TrstCycles} {s : Slave w l} {x : XipIn}

/-- The three state machines agree on the phase `p`. -/
structure InPhase (T : TrstCycles) (p : Phase) (s : Slave w l) : Prop where
  fetching : s.dmc.fetching = decide (p ≠ .idle)
  mStart : s.dmc.mStartReg = decide (p = .started)
  wrap : p.WrapIn s.wrap.state
  flashStart : s.wrap.flashStartReg = decide (p = .cmd)
  mDone : s.wrap.mDoneReg = decide (p = .done)
  ctrl : p.CtrlIn T s.ctrl

/-- A miss or a pending prefetch: what makes an idle cache begin a fetch. -/
def wants (s : Slave w l) (x : XipIn) : Bool :=
  s.dmc.amiss (s.dmcIn x) || s.dmc.dmiss (s.dmcIn x) || s.dmc.pfPending

/-- Cycles of the controller from `start` to `done`. -/
def runLen (T : TrstCycles) (s : Slave w l) : ℕ :=
  if s.ctrl.isFirst then 208 + T.val else 156

/-! ## Edges of the single machines -/

/-- The next state of the cache FSM. -/
theorem dmc_clock_fetching :
    (s.clock m T x).dmc.fetching =
      if s.dmc.fetching then !s.wrap.mDoneReg else s.wants x := by
  cases hf : s.dmc.fetching
  · simp only [clock, Dmc.step, Dmc.stepMain, hf, Dmc.stepIdle, Bool.false_eq_true, if_false,
      wants]
    cases ha : s.dmc.amiss (s.dmcIn x)
    · cases hd : s.dmc.dmiss (s.dmcIn x)
      · cases hp : s.dmc.pfPending <;> simp [Dmc.prefetch, hf]
      · simp [Dmc.demand]
    · simp [Dmc.demand]
  · simp only [clock, Dmc.step, Dmc.stepMain, hf, Dmc.stepFetch, if_true, dmcIn]
    cases hd : s.wrap.mDoneReg
    · simp
    · simp only [if_true, Dmc.finish]
      split <;> rfl

/-- `m_start` is up in the first cycle of a fetch. -/
theorem dmc_clock_mStart (h : s.dmc.fetching = false → s.dmc.mStartReg = false) :
    (s.clock m T x).dmc.mStartReg = (!s.dmc.fetching && s.wants x) := by
  cases hf : s.dmc.fetching
  · simp only [clock, Dmc.step, Dmc.stepMain, hf, Dmc.stepIdle, Bool.false_eq_true, if_false,
      wants]
    cases ha : s.dmc.amiss (s.dmcIn x)
    · cases hd : s.dmc.dmiss (s.dmcIn x)
      · cases hp : s.dmc.pfPending <;> simp [Dmc.prefetch, h hf]
      · simp [Dmc.demand]
    · simp [Dmc.demand]
  · simp only [clock, Dmc.step, Dmc.stepMain, hf, Dmc.stepFetch, if_true]
    split
    · simp only [Dmc.finish]
      split <;> rfl
    · rfl

/-- The miss address is stable during a fetch. -/
theorem dmc_clock_missAddr (h : s.dmc.fetching = true) :
    (s.clock m T x).dmc.missAddrReg = s.dmc.missAddrReg := by
  simp only [clock, Dmc.step, Dmc.stepMain, h, Dmc.stepFetch, if_true]
  split
  · simp only [Dmc.finish]
    split <;> rfl
  · rfl

/-- The line under fetch does not change before the fetch is over. -/
theorem fetchLine_clock (hf : s.dmc.fetching = true) :
    (s.clock m T x).dmc.fetchLineReg = s.dmc.fetchLineReg ∧
      (s.clock m T x).dmc.fetchIsPf = s.dmc.fetchIsPf := by
  simp only [clock, Dmc.step, Dmc.stepMain, hf, Dmc.stepFetch, if_true]
  split
  · simp only [Dmc.finish]
    split <;> exact ⟨rfl, rfl⟩
  · exact ⟨rfl, rfl⟩

/-! ## Edges of the chain -/

namespace InPhase

/-- Reset ends every fetch. -/
theorem reset (s : Slave w l) : InPhase T .idle s.reset := by
  constructor <;> rfl

/-- **Idle**: a fetch begins if one is wanted. -/
theorem clock_idle (h : InPhase T .idle s) :
    InPhase T (if s.wants x then .started else .idle) (s.clock m T x) := by
  obtain ⟨hf, hm, hw, hs, hd, hc⟩ := h
  have hw' : s.wrap.state = .idle := hw
  have hidle := FlashCtrl.idle_step (T := T) hc (s.flash.di m s.pins x.junk)
  have hfetch := dmc_clock_fetching (s := s) (m := m) (T := T) (x := x)
  have hstart := dmc_clock_mStart (s := s) (m := m) (T := T) (x := x) (fun _ => hm)
  simp only [ne_eq, not_true_eq_false, decide_false, reduceCtorEq] at hf hm hs hd
  rw [hf] at hfetch hstart
  have hctrl : (s.clock m T x).ctrl.state = .idle := by
    rw [clock, hs]
    exact hidle.1
  constructor
  · rw [hfetch]
    cases s.wants x <;> rfl
  · rw [hstart]
    cases s.wants x <;> rfl
  · have : (s.clock m T x).wrap.state = .idle := by
      simp [clock, stepWrap, hw', hm]
    cases s.wants x <;> exact this
  · have : (s.clock m T x).wrap.flashStartReg = false := by
      simp [clock, stepWrap, hw', hm, hs]
    rw [this]
    cases s.wants x <;> rfl
  · have : (s.clock m T x).wrap.mDoneReg = false := by
      simp [clock, stepWrap, hw']
    rw [this]
    cases s.wants x <;> rfl
  · cases s.wants x <;> exact hctrl

/-- **`m_start`**: the wrapper raises `start`. -/
theorem clock_started (h : InPhase T .started s) : InPhase T .cmd (s.clock m T x) := by
  obtain ⟨hf, hm, hw, hs, hd, hc⟩ := h
  have hw' : s.wrap.state = .idle := hw
  simp only [ne_eq, reduceCtorEq, not_false_eq_true, decide_true, decide_false] at hf hm hs hd
  constructor
  · rw [dmc_clock_fetching, hf, hd]
    rfl
  · rw [dmc_clock_mStart (by simp [hf]), hf]
    rfl
  · simp [Phase.WrapIn, clock, stepWrap, hw', hm]
  · simp [clock, stepWrap, hw', hm]
  · simp [clock, stepWrap, hw']
  · have hidle := FlashCtrl.idle_step (T := T) hc (s.flash.di m s.pins x.junk)
    rw [Phase.CtrlIn, clock, hs]
    exact hidle.1

/-- **`start`**: the controller begins a run. -/
theorem clock_cmd (h : InPhase T .cmd s) :
    InPhase T .running (s.clock m T x) ∧ (s.clock m T x).ctrl.remaining T = s.runLen T := by
  obtain ⟨hf, hm, hw, hs, hd, hc⟩ := h
  have hw' : s.wrap.state = .startCmd := hw
  simp only [ne_eq, reduceCtorEq, not_false_eq_true, decide_true, decide_false] at hf hm hs hd
  have hrun := FlashCtrl.start_step (T := T) hc (s.flash.di m s.pins x.junk)
  refine ⟨?_, ?_⟩
  · constructor
    · rw [dmc_clock_fetching, hf, hd]
      rfl
    · rw [dmc_clock_mStart (by simp [hf]), hf]
      rfl
    · simp [Phase.WrapIn, clock, stepWrap, hw']
    · simp [clock, stepWrap, hw']
    · simp [clock, stepWrap, hw']
    · rw [Phase.CtrlIn, clock, hs]
      exact ⟨hrun.1, hrun.2.1⟩
  · rw [clock, hs]
    exact hrun.2.2.1

/-- **Running**: the controller counts down, and raises `done` in the end. -/
theorem clock_running (h : InPhase T .running s) :
    (s.clock m T x).ctrl.remaining T + 1 = s.ctrl.remaining T ∧
      (InPhase T .running (s.clock m T x) ∨
        (InPhase T .landed (s.clock m T x) ∧ s.ctrl.remaining T = 1)) := by
  obtain ⟨hf, hm, hw, hs, hd, hc, hdone⟩ := h
  simp only [ne_eq, reduceCtorEq, not_false_eq_true, decide_true, decide_false] at hf hm hs hd
  have hstep := FlashCtrl.remaining_step hc false (s.flash.di m s.pins x.junk)
  have hfetch : (s.clock m T x).dmc.fetching = true := by
    rw [dmc_clock_fetching, hf, hd]
    rfl
  have hstart : (s.clock m T x).dmc.mStartReg = false := by
    rw [dmc_clock_mStart (by simp [hf]), hf]
    rfl
  have hwrap : (s.clock m T x).wrap.state = .waitHigh := by
    rcases hw with hw | hw <;> simp [clock, stepWrap, hw, hdone]
  have hfstart : (s.clock m T x).wrap.flashStartReg = false := by
    rcases hw with hw | hw <;> simp [clock, stepWrap, hw, hs]
  have hmdone : (s.clock m T x).wrap.mDoneReg = false := by
    simp [clock, stepWrap, hdone]
  have hctrl : (s.clock m T x).ctrl = s.ctrl.step T false (s.flash.di m s.pins x.junk) := by
    rw [clock, hs]
  rw [← hctrl] at hstep
  refine ⟨hstep.1, ?_⟩
  rcases hstep.2 with hin | ⟨hidle, hst, htk⟩
  · left
    refine ⟨hfetch, hstart, Or.inr hwrap, hfstart, hmdone, hin, ?_⟩
    -- the controller is not idle yet, so this was not its last cycle
    have hnot : s.ctrl.remaining T ≠ 1 := by
      have hpos := hin.remaining_pos
      have hrem := hstep.1
      omega
    rw [hctrl, FlashCtrl.doneReg_step hc, hdone, decide_eq_false hnot]
    rfl
  · right
    refine ⟨⟨hfetch, hstart, hwrap, hfstart, hmdone, hidle, ?_⟩, ?_⟩
    · simp [hctrl, FlashCtrl.step, hst, htk]
    · simp [FlashCtrl.remaining, hst, htk, FState.after, FState.len]

/-- **`done`**: the wrapper raises `m_done`. -/
theorem clock_landed (h : InPhase T .landed s) : InPhase T .done (s.clock m T x) := by
  obtain ⟨hf, hm, hw, hs, hd, hc, hdone⟩ := h
  have hw' : s.wrap.state = .waitHigh := hw
  simp only [ne_eq, reduceCtorEq, not_false_eq_true, decide_true, decide_false] at hf hm hs hd
  constructor
  · rw [dmc_clock_fetching, hf, hd]
    rfl
  · rw [dmc_clock_mStart (by simp [hf]), hf]
    rfl
  · simp [Phase.WrapIn, clock, stepWrap, hw', hdone]
  · simp [clock, stepWrap, hw', hs]
  · simp [clock, stepWrap, hw', hdone]
  · have hidle := FlashCtrl.idle_step (T := T) hc (s.flash.di m s.pins x.junk)
    rw [Phase.CtrlIn, clock, hs]
    exact hidle.1

/-- **`m_done`**: the cache is idle again. -/
theorem clock_done (h : InPhase T .done s) : InPhase T .idle (s.clock m T x) := by
  obtain ⟨hf, hm, hw, hs, hd, hc⟩ := h
  have hw' : s.wrap.state = .idle := hw
  simp only [ne_eq, reduceCtorEq, not_false_eq_true, decide_true, decide_false] at hf hm hs hd
  constructor
  · rw [dmc_clock_fetching, hf, hd]
    rfl
  · rw [dmc_clock_mStart (by simp [hf]), hf]
    rfl
  · simp [Phase.WrapIn, clock, stepWrap, hw', hm]
  · simp [clock, stepWrap, hw', hm, hs]
  · simp [clock, stepWrap, hw']
  · have hidle := FlashCtrl.idle_step (T := T) hc (s.flash.di m s.pins x.junk)
    rw [Phase.CtrlIn, clock, hs]
    exact hidle.1

end InPhase

end Slave

end KwsSoc.Xip
