import KwsSoc.Xip.Chain
import KwsSoc.Xip.Landing

/-! # A line on its way

A fetch for lines of any length. `Fetching` joins the phase of the chain with what flash and
controller have exchanged and what has landed in the line; `left` counts the cycles until
`m_done`. `Fetching.clock` is one edge of a fetch and `Fetching.along` a whole one, whatever was in
the line before. -/

namespace KwsSoc.Xip

open SyncMachine

/-! ## Nibbles of the flash -/

section Nibbles

variable {w : ℕ} {T : TrstCycles} {m : FlashMem} {a : BitVec 24} {r : FlashCtrl w} {f : SpiFlash}

/-- Two nibbles of the flash are one of its bytes. -/
theorem byteAt_nibble (m : FlashMem) (a : BitVec 24) (k : ℕ) :
    byteAt (SpiFlash.nibble m a) k = m (a + BitVec.ofNat 24 k) := by
  have hodd : ¬ (2 * k + 1) % 2 = 0 := by omega
  rw [byteAt, SpiFlash.nibble, SpiFlash.nibble, if_pos (Nat.mul_mod_right 2 k), if_neg hodd,
    show 2 * k / 2 = k by omega, show (2 * k + 1) / 2 = k by omega]
  exact BitVec.extractLsb'_append_extractLsb'

/-- The flash answers an odd tick of `DATA` with the next nibble of the contents. -/
theorem di_data (h : Tracks a r f) (hs : r.state = .data) (ht : r.phaseTick.toNat % 2 = 1)
    (junk : BitVec 4) :
    f.di m (r.pins a) junk = SpiFlash.nibble m a (r.phaseTick.toNat / 2) := by
  obtain ⟨hp, hst⟩ := h
  rw [hs] at hst
  obtain ⟨hn, hc, ha⟩ := hst
  have hodd : r.phaseTick.getLsbD 0 = true := (getLsbD_zero_iff _).mpr ht
  -- 8 nibbles and 4 dummy clocks have passed, so the flash drives the pins
  have hcond : (r.pins a).csn = false ∧ f.rising (r.pins a) = true ∧
      (r.pins a).doe = 0b0000 ∧ f.nNib = 8 ∧ 4 ≤ f.nClk := by
    refine ⟨?_, ?_, ?_, hn, by omega⟩
    · simp only [FlashCtrl.pins, FlashCtrl.active, hs, Bool.not_true]
    · simp only [SpiFlash.rising, FlashCtrl.pins, FlashCtrl.active, hs, hodd, hp ht,
        Bool.and_self, Bool.not_false]
    · simp only [FlashCtrl.pins, FlashCtrl.doe, hs]
  rw [SpiFlash.di, if_pos hcond, hc, ha, Nat.add_sub_cancel_left]

end Nibbles

namespace Slave

variable {w l : ℕ} {m : FlashMem} {T : TrstCycles} {d : Line w} {s : Slave w l} {x : XipIn}
  {p : Phase}

/-! ## The fetch invariant -/

/-- **The fetch invariant**: the phase of the chain, what the flash has seen of the transaction, and
what has landed in the line, which held `d` before. -/
structure Fetching (m : FlashMem) (T : TrstCycles) (d : Line w) (p : Phase) (s : Slave w l) :
    Prop where
  phase : InPhase T p s
  tracks : p = .running → Tracks s.ctrlAddr s.ctrl s.flash
  before : p = .idle ∨ p = .started ∨ p = .cmd → s.ctrl.dataReg = d
  filled : p = .running ∨ p = .landed ∨ p = .done →
    s.ctrl.Filled (SpiFlash.nibble m s.ctrlAddr) d s.ctrl.dataTicks

/-- Cycles until `m_done`. -/
def left (T : TrstCycles) (p : Phase) (s : Slave w l) : ℕ :=
  match p with
  | .started => s.runLen T + 3
  | .cmd => s.runLen T + 2
  | .running => s.ctrl.remaining T + 1
  | .landed => 1
  | .idle | .done => 0

/-- The address at the controller is stable during a fetch. -/
theorem ctrlAddr_clock (h : s.dmc.fetching = true) : (s.clock m T x).ctrlAddr = s.ctrlAddr := by
  rw [ctrlAddr, ctrlAddr, dmc_clock_missAddr h]

/-- While the controller is idle the flash is deselected. -/
theorem flash_clock_idle (h : s.ctrl.state = .idle) : (s.clock m T x).flash = .deselected := by
  have hact : s.ctrl.active = false := by rw [FlashCtrl.active, h]
  exact flash_step_inactive hact

/-- Without `start` an idle controller keeps the line. -/
theorem dataReg_clock_idle (h : s.ctrl.state = .idle) (hs : s.wrap.flashStartReg = false) :
    (s.clock m T x).ctrl.dataReg = s.ctrl.dataReg := by
  have hkeep := FlashCtrl.stepData_idle (r := s.ctrl) (by simp [h]) (s.flash.di m s.pins x.junk)
  rw [clock, hs]
  simp only [FlashCtrl.step, hkeep]

namespace Fetching

theorem clock_idle (h : Fetching m T d .idle s) :
    Fetching m T d (if s.wants x then .started else .idle) (s.clock m T x) := by
  have hline := dataReg_clock_idle (m := m) (T := T) (x := x) h.phase.ctrl h.phase.flashStart
  refine ⟨h.phase.clock_idle, ?_, fun _ => hline.trans (h.before (Or.inl rfl)), ?_⟩
  · intro hp
    cases hw : s.wants x <;> rw [hw] at hp <;> cases hp
  · intro hp
    cases hw : s.wants x <;> rw [hw] at hp <;> rcases hp with hp | hp | hp <;> cases hp

theorem clock_started (h : Fetching m T d .started s) : Fetching m T d .cmd (s.clock m T x) := by
  have hline := dataReg_clock_idle (m := m) (T := T) (x := x) h.phase.ctrl h.phase.flashStart
  refine ⟨h.phase.clock_started, ?_, fun _ => hline.trans (h.before (by simp)), ?_⟩
  · rintro ⟨⟩
  · rintro (hp | hp | hp) <;> cases hp

/-- At `start` the flash is deselected and the capture registers are cleared. -/
theorem clock_cmd (h : Fetching m T d .cmd s) : Fetching m T d .running (s.clock m T x) := by
  have hidle : s.ctrl.state = .idle := h.phase.ctrl
  have hstart : s.wrap.flashStartReg = true := by rw [h.phase.flashStart]; rfl
  have hflash := flash_clock_idle (m := m) (T := T) (x := x) hidle
  obtain ⟨-, -, -, htick, hstate⟩ :=
    FlashCtrl.start_step (T := T) hidle (s.flash.di m s.pins x.junk)
  have hctrl : (s.clock m T x).ctrl = s.ctrl.step T true (s.flash.di m s.pins x.junk) := by
    rw [clock, hstart]
  rw [← hctrl] at htick hstate
  refine ⟨h.phase.clock_cmd.1, ?_, ?_, ?_⟩
  · intro _
    refine ⟨fun ho => ?_, ?_⟩
    · rw [htick] at ho
      simp at ho
    · have hzero : (s.clock m T x).ctrlAddr.toNat / 16 ^ 6 = 0 :=
        Nat.div_eq_of_lt (s.clock m T x).ctrlAddr.isLt
      rw [hstate, hflash, htick]
      cases s.ctrl.isFirst
      · exact ⟨rfl, rfl, hzero.symm⟩
      · exact ⟨rfl, rfl, rfl⟩
  · rintro (hp | hp | hp) <;> cases hp
  · intro _
    have hticks : (s.clock m T x).ctrl.dataTicks = 0 := by
      rw [FlashCtrl.dataTicks, hstate]
      cases s.ctrl.isFirst <;> rfl
    rw [hticks, hctrl, ← h.before (by simp)]
    exact FlashCtrl.filled_start _ _

theorem clock_running (h : Fetching m T d .running s) :
    (Fetching m T d .running (s.clock m T x) ∧
        (s.clock m T x).ctrl.remaining T + 1 = s.ctrl.remaining T) ∨
      (Fetching m T d .landed (s.clock m T x) ∧ s.ctrl.remaining T = 1) := by
  have hfetch : s.dmc.fetching = true := by rw [h.phase.fetching]; rfl
  have hstart : s.wrap.flashStartReg = false := by rw [h.phase.flashStart]; rfl
  have haddr := ctrlAddr_clock (m := m) (T := T) (x := x) hfetch
  have htr := h.tracks rfl
  have hin : s.ctrl.InTick T := h.phase.ctrl.1
  have hfill : (s.clock m T x).ctrl.Filled (SpiFlash.nibble m (s.clock m T x).ctrlAddr) d
      (s.clock m T x).ctrl.dataTicks := by
    rw [haddr, clock, hstart]
    exact (h.filled (Or.inl rfl)).step hin fun hs ht => di_data htr hs ht x.junk
  have htr' : Tracks (s.clock m T x).ctrlAddr (s.clock m T x).ctrl (s.clock m T x).flash := by
    rw [haddr, clock, hstart]
    exact tracks_step htr hin false _
  obtain ⟨hrem, hp | ⟨hp, h1⟩⟩ := h.phase.clock_running (m := m) (x := x)
  · refine Or.inl ⟨⟨hp, fun _ => htr', ?_, fun _ => hfill⟩, hrem⟩
    rintro (hp | hp | hp) <;> cases hp
  · refine Or.inr ⟨⟨hp, ?_, ?_, fun _ => hfill⟩, h1⟩
    · rintro ⟨⟩
    · rintro (hp | hp | hp) <;> cases hp

theorem clock_landed (h : Fetching m T d .landed s) : Fetching m T d .done (s.clock m T x) := by
  have hfetch : s.dmc.fetching = true := by rw [h.phase.fetching]; rfl
  have hstart : s.wrap.flashStartReg = false := by rw [h.phase.flashStart]; rfl
  refine ⟨h.phase.clock_landed, ?_, ?_, ?_⟩
  · rintro ⟨⟩
  · rintro (hp | hp | hp) <;> cases hp
  · intro _
    rw [ctrlAddr_clock hfetch, clock, hstart]
    exact (h.filled (Or.inr (Or.inl rfl))).step_idle h.phase.ctrl.1 _

/-- After `m_done` the line is what the next fetch finds. -/
theorem clock_done (h : Fetching m T d .done s) :
    Fetching m T s.ctrl.dataReg .idle (s.clock m T x) := by
  have hline := dataReg_clock_idle (m := m) (T := T) (x := x) h.phase.ctrl h.phase.flashStart
  refine ⟨h.phase.clock_done, ?_, fun _ => hline, ?_⟩
  · rintro ⟨⟩
  · rintro (hp | hp | hp) <;> cases hp

theorem reset (s : Slave w l) : Fetching m T (fun _ => 0) .idle s.reset := by
  refine ⟨InPhase.reset s, ?_, fun _ => rfl, ?_⟩
  · rintro ⟨⟩
  · rintro (hp | hp | hp) <;> cases hp

theorem powerOn : Fetching m T (fun _ => 0) .idle (powerOn w l) := by
  refine ⟨by constructor <;> rfl, ?_, fun _ => rfl, ?_⟩
  · rintro ⟨⟩
  · rintro (hp | hp | hp) <;> cases hp

/-- **Step lemma for a fetch**: each cycle brings `m_done` one nearer. -/
theorem clock (h : Fetching m T d p s) (hi : p ≠ .idle) (hd : p ≠ .done) :
    ∃ q, Fetching m T d q (s.clock m T x) ∧ q ≠ .idle ∧ q ≠ .started ∧
      left T q (s.clock m T x) + 1 = left T p s := by
  cases p
  case idle => exact absurd rfl hi
  case done => exact absurd rfl hd
  case started =>
    have hidle : s.ctrl.state = .idle := h.phase.ctrl
    have hlen : (s.clock m T x).runLen T = s.runLen T := by
      simp [runLen, Slave.clock, FlashCtrl.step, hidle]
    refine ⟨.cmd, h.clock_started, by simp, by simp, ?_⟩
    simp only [left, hlen]
  case cmd =>
    refine ⟨.running, h.clock_cmd, by simp, by simp, ?_⟩
    simp only [left, (h.phase.clock_cmd (m := m) (x := x)).2]
  case running =>
    rcases h.clock_running (x := x) with ⟨hp, hrem⟩ | ⟨hp, h1⟩
    · refine ⟨.running, hp, by simp, by simp, ?_⟩
      simp only [left, ← hrem]
    · refine ⟨.landed, hp, by simp, by simp, ?_⟩
      simp only [left, h1]
  case landed => exact ⟨.done, h.clock_landed, by simp, by simp, rfl⟩

/-- The fetch invariant, in some phase and from some line, is kept by every step. -/
theorem exists_step (h : ∃ d p, Fetching m T d p s) (e : Event) :
    ∃ d p, Fetching m T d p (s.step m T e) := by
  obtain ⟨d, p, hp⟩ := h
  cases e with
  | reset => exact ⟨_, _, Fetching.reset s⟩
  | clock x =>
    by_cases hi : p = .idle
    · subst hi
      exact ⟨_, _, hp.clock_idle⟩
    · by_cases hd : p = .done
      · subst hd
        exact ⟨_, _, hp.clock_done⟩
      · obtain ⟨q, hq, -⟩ := hp.clock (x := x) hi hd
        exact ⟨_, q, hq⟩

/-- **Run lemma for a fetch**: `j` cycles later it is `j` cycles nearer to `m_done`. -/
theorem along (h : Fetching m T d p s) (hi : p ≠ .idle) (x : ℕ → XipIn) {j : ℕ}
    (hj : j ≤ left T p s) :
    ∃ q, Fetching m T d q (trace (Slave.clock m T) s x j) ∧ q ≠ .idle ∧ (0 < j → q ≠ .started) ∧
      left T q (trace (Slave.clock m T) s x j) + j = left T p s ∧
      (trace (Slave.clock m T) s x j).dmc.missAddrReg = s.dmc.missAddrReg ∧
      (trace (Slave.clock m T) s x j).dmc.fetchIsPf = s.dmc.fetchIsPf := by
  induction j with
  | zero => exact ⟨p, h, hi, by simp, rfl, rfl, rfl⟩
  | succ j ih =>
    obtain ⟨q, hq, hqi, -, hleft, haddr, hpf⟩ := ih (by omega)
    have hd : q ≠ .done := by
      rintro rfl
      change 0 + j = left T p s at hleft
      omega
    obtain ⟨q', hq', hi', hst', hleft'⟩ := hq.clock (x := x j) hqi hd
    -- the address register is kept while the fetch runs
    have hfetch : (trace (Slave.clock m T) s x j).dmc.fetching = true := by
      rw [hq.phase.fetching, decide_eq_true_iff]
      exact hqi
    rw [trace_succ]
    exact ⟨q', hq', hi', fun _ => hst', by omega, by rw [dmc_clock_missAddr hfetch, haddr],
      by rw [(fetchLine_clock hfetch).2, hpf]⟩

/-- What a fetch has put in the line. -/
theorem line (h : Fetching m T d p s) (hp : p = .landed ∨ p = .done) :
    s.ctrl.dataReg = landed (SpiFlash.nibble m s.ctrlAddr) d 32 := by
  have hidle : s.ctrl.state = .idle := by
    rcases hp with rfl | rfl
    · exact h.phase.ctrl.1
    · exact h.phase.ctrl
  have hline := (h.filled (Or.inr hp)).line
  simp only [FlashCtrl.dataTicks, hidle] at hline
  exact hline

end Fetching

/-! ## The first fetch -/

/-- Nothing on the bus but a read of address `a` in the first cycle. -/
def readOf (a : BitVec 32) (n : ℕ) : XipIn where
  hsel := n == 0
  haddr := a
  htrans := 0b10
  hwrite := false
  hreadyIn := true
  prefetchEn := false
  prefetchBase := 0
  prefetchLen := 0
  junk := 0

/-- **The first read after power-on** is fetched for into an empty line. -/
theorem exists_first_fetch (w l : ℕ) (m : FlashMem) (T : TrstCycles) (a : BitVec 32) :
    ∃ n s, trace (step m T) (powerOn w l) (fun k => .clock (readOf a k)) (n + 1) = s ∧
      s.wrap.mDoneReg = true ∧ s.dmc.missAddrReg = a ∧
      s.ctrl.dataReg = landed (SpiFlash.nibble m s.ctrlAddr) (fun _ => 0) 32 ∧
      s.dmc.fetching = true ∧ s.dmc.fetchIsPf = false := by
  have hmiss : (powerOn w l).dmc.amiss ((powerOn w l).dmcIn (readOf a 0)) = true := by
    simp [Dmc.amiss, Dmc.hit, Dmc.hitFull, Dmc.hitCwf, Dmc.hitPf, powerOn, Dmc.powerOn, dmcIn,
      readReq, readOf, hready, Wrapper.reset]
  have hwants : (powerOn w l).wants (readOf a 0) = true := by rw [wants, hmiss]; rfl
  have hmain : (powerOn w l).dmc.stepMain ((powerOn w l).dmcIn (readOf a 0)) =
      (powerOn w l).dmc.demand a := by
    rw [Dmc.stepMain, Dmc.stepIdle, hmiss]
    rfl
  have haddr : ((powerOn w l).clock m T (readOf a 0)).dmc.missAddrReg = a ∧
      ((powerOn w l).clock m T (readOf a 0)).dmc.fetchIsPf = false := by
    simp only [clock, Dmc.step, hmain]
    exact ⟨rfl, rfl⟩
  have hstart := (Fetching.powerOn (w := w) (l := l) (m := m) (T := T)).clock_idle
    (x := readOf a 0)
  rw [hwants, if_pos rfl] at hstart
  -- from here on the fetch runs by itself
  obtain ⟨q, hq, hi, -, hleft, hmissAddr, hpf⟩ :=
    hstart.along (by decide) (fun k => readOf a (1 + k)) le_rfl
  have hdone : q = .done := by
    cases q
    case done => rfl
    case idle => exact absurd rfl hi
    all_goals
      simp only [left] at hleft
      omega
  subst hdone
  refine ⟨left T .started ((powerOn w l).clock m T (readOf a 0)), _, ?_, ?_,
    hmissAddr.trans haddr.1, hq.line (Or.inr rfl), ?_, hpf.trans haddr.2⟩
  · rw [trace_comp, Nat.add_comm, trace_add]
    rfl
  · rw [hq.phase.mDone]
    rfl
  · rw [hq.phase.fetching]
    rfl

end Slave

end KwsSoc.Xip
