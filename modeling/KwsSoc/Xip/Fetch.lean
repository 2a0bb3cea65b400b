import KwsSoc.Xip.LineFetch

/-! # Every fetch is one transaction

`Transfer` joins the phase of the chain with what flash and controller have exchanged, for lines of
32 bytes (`Landed`, `Captured`). From `Transfer.clock` (one edge) and `transfer_along`
(a whole fetch) follows `fetch_contract`: a stalled read is being fetched for, `m_start` meets an
idle chain, and unless a reset cuts it off each `m_start` leads to one transaction with the
flash and one `m_done`. A reset does cut it off: `reset_drops_fetch`. -/

namespace KwsSoc.Xip

open SyncMachine

/-! ## What has landed of a line of 32 bytes -/

section Landed

variable {T : TrstCycles} {m : FlashMem} {a : BitVec 24} {r : FlashCtrl 3} {n : ℕ}

/-- The first `n` bytes of the line at `a` have landed, and exactly the words they complete are
reported. -/
structure Landed (m : FlashMem) (a : BitVec 24) (r : FlashCtrl 3) (n : ℕ) : Prop where
  byteIdx : r.byteIdx = BitVec.ofNat 5 n
  bytes : ∀ j : BitVec 5, j.toNat < n → r.dataReg j = m (a + j.setWidth 24)
  words : ∀ k : BitVec 3, r.wordDone k = true ↔ 4 * k.toNat + 3 < n

/-- What has landed by a tick of the transaction; between its nibbles a byte has its high one. -/
def Captured (m : FlashMem) (a : BitVec 24) (r : FlashCtrl 3) : Prop :=
  match r.state with
  | .idle | .doneWait => Landed m a r 32
  | .data => Landed m a r (r.phaseTick.toNat / 4) ∧
      (2 ≤ r.phaseTick.toNat % 4 →
        r.dbyte.extractLsb' 4 4 =
          (m (a + BitVec.ofNat 24 (r.phaseTick.toNat / 4))).extractLsb' 4 4)
  | _ => Landed m a r 0

/-- `Landed` in the terms of the line as it fills up. -/
theorem exists_filled_iff {t : ℕ} (ht : t ≤ 128) :
    (∃ d, r.Filled (SpiFlash.nibble m a) d t) ↔
      Landed m a r (t / 4) ∧ (2 ≤ t % 4 →
        r.dbyte.extractLsb' 4 4 = (m (a + BitVec.ofNat 24 (t / 4))).extractLsb' 4 4) := by
  have hbyte : ∀ j : BitVec 5,
      byteAt (SpiFlash.nibble m a) j.toNat = m (a + j.setWidth 24) := fun j => by
    rw [byteAt_nibble, BitVec.ofNat_toNat]
  have hhigh : SpiFlash.nibble m a (2 * (t / 4)) =
      (m (a + BitVec.ofNat 24 (t / 4))).extractLsb' 4 4 := by
    rw [SpiFlash.nibble, if_pos (Nat.mul_mod_right 2 _), Nat.mul_div_cancel_left _ (by decide)]
  constructor
  · rintro ⟨d, hidx, hline, hwords, hhi⟩
    refine ⟨⟨hidx, ?_, ?_⟩, fun h2 => (hhi h2).trans hhigh⟩
    · intro j hj
      rw [hline, landed_of_lt hj (by omega), hbyte]
    · intro k
      rw [hwords]
      exact landedWords_iff (by omega) k
  · rintro ⟨⟨hidx, hbytes, hwords⟩, hhi⟩
    -- what is beyond the landed bytes was there before
    refine ⟨r.dataReg, hidx, ?_, ?_, fun h2 => (hhi h2).trans hhigh.symm⟩
    · funext j
      by_cases hj : j.toNat < t / 4
      · rw [landed_of_lt hj (by omega), hbyte, hbytes j hj]
      · rw [landed_of_le (Nat.le_of_not_lt hj)]
    · funext k
      rw [Bool.eq_iff_iff, hwords, landedWords_iff (by omega)]

theorem captured_iff (h : r.InTick T ∨ r.state = .idle) :
    Captured m a r ↔ ∃ d, r.Filled (SpiFlash.nibble m a) d r.dataTicks := by
  have hall : Landed m a r 32 ↔ ∃ d, r.Filled (SpiFlash.nibble m a) d 128 := by
    rw [exists_filled_iff (le_refl 128)]
    simp
  have hnone : Landed m a r 0 ↔ ∃ d, r.Filled (SpiFlash.nibble m a) d 0 := by
    rw [exists_filled_iff (Nat.zero_le 128)]
    simp
  rw [Captured, FlashCtrl.dataTicks]
  cases hs : r.state
  case idle | doneWait => exact hall
  case data =>
    rcases h with ⟨-, hlt⟩ | h
    · rw [hs] at hlt
      exact (exists_filled_iff (Nat.le_of_lt hlt)).symm
    · rw [hs] at h
      cases h
  all_goals exact hnone

end Landed

namespace Slave

variable {l : ℕ} {m : FlashMem} {T : TrstCycles} {s : Slave 3 l} {x : XipIn} {p : Phase}

/-! ## The transfer invariant -/

/-- **The transfer invariant**: the phase of the chain, what the flash has seen of the
transaction, and what has landed of the line. -/
structure Transfer (m : FlashMem) (T : TrstCycles) (p : Phase) (s : Slave 3 l) : Prop where
  phase : InPhase T p s
  tracks : p = .running → Tracks s.ctrlAddr s.ctrl s.flash
  captured : p = .running ∨ p = .landed ∨ p = .done → Captured m s.ctrlAddr s.ctrl

/-- In the terms of lines of any length. -/
theorem transfer_iff : Transfer m T p s ↔ ∃ d, Fetching m T d p s := by
  have hcaptured : InPhase T p s → (p = .running ∨ p = .landed ∨ p = .done) →
      (Captured m s.ctrlAddr s.ctrl ↔
        ∃ d, s.ctrl.Filled (SpiFlash.nibble m s.ctrlAddr) d s.ctrl.dataTicks) := by
    rintro hp (rfl | rfl | rfl)
    · exact captured_iff (Or.inl hp.ctrl.1)
    · exact captured_iff (T := T) (Or.inr hp.ctrl.1)
    · exact captured_iff (T := T) (Or.inr hp.ctrl)
  constructor
  · rintro ⟨hp, htr, hcap⟩
    by_cases hrun : p = .running ∨ p = .landed ∨ p = .done
    · obtain ⟨d, hd⟩ := (hcaptured hp hrun).mp (hcap hrun)
      refine ⟨d, hp, htr, ?_, fun _ => hd⟩
      rintro (rfl | rfl | rfl) <;> rcases hrun with h | h | h <;> cases h
    · exact ⟨s.ctrl.dataReg, hp, htr, fun _ => rfl, fun h => absurd h hrun⟩
  · rintro ⟨d, hp, htr, -, hf⟩
    exact ⟨hp, htr, fun hrun => (hcaptured hp hrun).mpr ⟨d, hf hrun⟩⟩

theorem ctrlAddr_eq (s : Slave 3 l) : s.ctrlAddr = lineAddr s.dmc.missAddrReg := rfl

namespace Transfer

theorem clock_idle (h : Transfer m T .idle s) :
    Transfer m T (if s.wants x then .started else .idle) (s.clock m T x) := by
  obtain ⟨d, hd⟩ := transfer_iff.mp h
  exact transfer_iff.mpr ⟨d, hd.clock_idle⟩

theorem clock_started (h : Transfer m T .started s) : Transfer m T .cmd (s.clock m T x) := by
  obtain ⟨d, hd⟩ := transfer_iff.mp h
  exact transfer_iff.mpr ⟨d, hd.clock_started⟩

theorem clock_cmd (h : Transfer m T .cmd s) : Transfer m T .running (s.clock m T x) := by
  obtain ⟨d, hd⟩ := transfer_iff.mp h
  exact transfer_iff.mpr ⟨d, hd.clock_cmd⟩

theorem clock_running (h : Transfer m T .running s) :
    (Transfer m T .running (s.clock m T x) ∧
        (s.clock m T x).ctrl.remaining T + 1 = s.ctrl.remaining T) ∨
      (Transfer m T .landed (s.clock m T x) ∧ s.ctrl.remaining T = 1) := by
  obtain ⟨d, hd⟩ := transfer_iff.mp h
  rcases hd.clock_running (x := x) with ⟨hq, hrem⟩ | ⟨hq, h1⟩
  · exact Or.inl ⟨transfer_iff.mpr ⟨d, hq⟩, hrem⟩
  · exact Or.inr ⟨transfer_iff.mpr ⟨d, hq⟩, h1⟩

theorem clock_landed (h : Transfer m T .landed s) : Transfer m T .done (s.clock m T x) := by
  obtain ⟨d, hd⟩ := transfer_iff.mp h
  exact transfer_iff.mpr ⟨d, hd.clock_landed⟩

theorem clock_done (h : Transfer m T .done s) : Transfer m T .idle (s.clock m T x) := by
  obtain ⟨d, hd⟩ := transfer_iff.mp h
  exact transfer_iff.mpr ⟨_, hd.clock_done⟩

theorem reset (s : Slave 3 l) : Transfer m T .idle s.reset :=
  transfer_iff.mpr ⟨_, Fetching.reset s⟩

theorem powerOn : Transfer m T .idle (powerOn 3 l) := transfer_iff.mpr ⟨_, Fetching.powerOn⟩

/-- **Step lemma for a fetch**: each cycle brings `m_done` one nearer. -/
theorem clock (h : Transfer m T p s) (hi : p ≠ .idle) (hd : p ≠ .done) :
    ∃ q, Transfer m T q (s.clock m T x) ∧ q ≠ .idle ∧ q ≠ .started ∧
      left T q (s.clock m T x) + 1 = left T p s := by
  obtain ⟨d, hf⟩ := transfer_iff.mp h
  obtain ⟨q, hq, hrest⟩ := hf.clock (x := x) hi hd
  exact ⟨q, transfer_iff.mpr ⟨d, hq⟩, hrest⟩

end Transfer

/-- The transfer invariant, in some phase, is kept by every step. -/
theorem exists_transfer_step (h : ∃ p, Transfer m T p s) (e : Event) :
    ∃ p, Transfer m T p (s.step m T e) := by
  obtain ⟨p, hp⟩ := h
  obtain ⟨d, hd⟩ := transfer_iff.mp hp
  obtain ⟨d', q, hq⟩ := Fetching.exists_step ⟨d, p, hd⟩ e
  exact ⟨q, transfer_iff.mpr ⟨d', hq⟩⟩

/-- The states of a run: power-on, then one event after the other. -/
def run (m : FlashMem) (T : TrstCycles) (l : ℕ) (e : ℕ → Event) : ℕ → Slave 3 l :=
  trace (step m T) (Slave.powerOn 3 l) e

theorem exists_transfer (e : ℕ → Event) (n : ℕ) : ∃ p, Transfer m T p (run m T l e n) :=
  trace_invariant (fun s => ∃ p, Transfer m T p s) ⟨_, Transfer.powerOn⟩
    (fun n h => exists_transfer_step h (e n)) n

/-! ## The transaction on the pins -/

/-- The last nibble of a read's address and mode goes to the flash. -/
def ReadOpens (s : Slave 3 l) : Prop := s.flash.nNib = 7 ∧ (s.flash.step s.pins).nNib = 8

/-- No read opens while the controller is idle. -/
theorem not_readOpens_idle (h : s.ctrl.state = .idle) : ¬ s.ReadOpens := by
  rintro ⟨-, h8⟩
  have hflash : s.flash.step s.pins = .deselected := by
    apply flash_step_inactive
    rw [FlashCtrl.active, h]
  rw [hflash] at h8
  cases h8

/-- In a running transaction a read opens at the last tick of `MODE`. -/
theorem readOpens_running (htr : Tracks s.ctrlAddr s.ctrl s.flash) (hin : s.ctrl.InTick T) :
    s.ReadOpens ↔ s.ctrl.state = .mode ∧ s.ctrl.phaseTick.toNat = 3 := by
  obtain ⟨hp, hst⟩ := htr
  have hlt := hin.2
  rw [ReadOpens, pins]
  cases hq : s.ctrl.state
  case idle => exact absurd hq hin.1
  case wait66 | trstWait | doneWait =>
    have hact : s.ctrl.active = false := by rw [FlashCtrl.active, hq]
    rw [flash_step_inactive hact]
    simp [SpiFlash.deselected]
  all_goals
    have hact : s.ctrl.active = true := by rw [FlashCtrl.active, hq]
    obtain ⟨hn, -, -⟩ := flash_step_active (a := s.ctrlAddr) hact hp
    rw [hq] at hst hlt
    simp only [FState.len] at hlt
    simp only at hst
    rw [hn]
  case mode =>
    have hd : s.ctrl.doe = 0b1111#4 := by rw [FlashCtrl.doe, hq]; rfl
    simp only [hd, hst.1, true_and, BitVec.ofNat_eq_ofNat, and_true]
    -- 8 nibbles at the flash: six of the address and two of the mode
    split_ifs <;> omega
  case addr =>
    simp only [hst.1, reduceCtorEq, false_and, iff_false]
    omega
  all_goals
    simp [hst.1]

/-- **A read opens** exactly 142 cycles before `m_done`. -/
theorem readOpens_iff (h : Transfer m T p s) : s.ReadOpens ↔ p ≠ .idle ∧ left T p s = 142 := by
  cases p
  case running =>
    have hin : s.ctrl.InTick T := h.phase.ctrl.1
    rw [readOpens_running (h.tracks rfl) hin, left, FlashCtrl.remaining]
    obtain ⟨hi, hlt⟩ := hin
    cases hq : s.ctrl.state <;> rw [hq] at hlt <;>
      -- of the states that are active only the last tick of `MODE` has 142 cycles left
      simp_all [FState.len, FState.after] <;> omega
  all_goals
    have hidle : s.ctrl.state = .idle := by
      first | exact h.phase.ctrl | exact h.phase.ctrl.1
    have hno := not_readOpens_idle hidle
    simp only [left, runLen]
    constructor
    · exact fun ho => absurd ho hno
    · rintro ⟨hne, heq⟩
      first | exact absurd rfl hne | (split_ifs at heq <;> omega) | omega

/-- When a read opens, the flash has the line address. -/
theorem readOpens_addr (h : Transfer m T p s) (ho : s.ReadOpens) :
    (s.flash.step s.pins).addr = lineAddr s.dmc.missAddrReg := by
  have hne : p ≠ .idle ∧ left T p s = 142 := (readOpens_iff h).mp ho
  cases p
  case running =>
    have hin : s.ctrl.InTick T := h.phase.ctrl.1
    have htr := h.tracks rfl
    obtain ⟨hq, -⟩ := (readOpens_running htr hin).mp ho
    have hact : s.ctrl.active = true := by rw [FlashCtrl.active, hq]
    obtain ⟨-, -, ha⟩ := flash_step_active (a := s.ctrlAddr) hact htr.1
    obtain ⟨-, hst⟩ := htr
    rw [hq] at hst
    have hn6 : ¬ s.flash.nNib < 6 := by omega
    rw [pins, ha, if_neg (by tauto), hst.2.2, ctrlAddr_eq]
  all_goals
    have hidle : s.ctrl.state = .idle := by
      first | exact h.phase.ctrl | exact h.phase.ctrl.1
    exact absurd ho (not_readOpens_idle hidle)

/-! ## Whole fetches -/

/-- The length of a fetch, from `m_start` to `m_done`. -/
def fetchLen (T : TrstCycles) (s : Slave 3 l) : ℕ := s.runLen T + 3

/-- `m_done` comes when nothing is left. -/
theorem mDone_iff (h : Transfer m T p s) (hi : p ≠ .idle) :
    s.wrap.mDoneReg = true ↔ left T p s = 0 := by
  rw [h.phase.mDone, decide_eq_true_iff]
  cases p
  case idle => exact absurd rfl hi
  case running => simp [left]
  all_goals simp [left]

/-- `m_start` is up in the phase `started` only. -/
theorem phase_of_mStart (h : Transfer m T p s) (hs : s.dmc.mStartReg = true) : p = .started := by
  rw [h.phase.mStart, decide_eq_true_iff] at hs
  exact hs

variable {e : ℕ → Event}

/-- A stretch of a run without resets is one of clock edges. -/
theorem exists_clocks {n j : ℕ} (hreset : ∀ i < j, ∃ x, e (n + i) = .clock x) :
    ∃ x : ℕ → XipIn, run m T l e (n + j) = trace (Slave.clock m T) (run m T l e n) x j := by
  choose x hx using hreset
  refine ⟨fun i => if h : i < j then x i h else readOf 0 0, ?_⟩
  rw [run, trace_stretch (j := fun i => .clock (if h : i < j then x i h else readOf 0 0))]
  · exact trace_comp (step m T) Event.clock _ _ j
  · intro i hi
    rw [dif_pos hi]
    exact hx i hi

/-- **Run lemma for a fetch**: as long as no reset comes, `j` cycles after `m_start` the fetch of
the same address is under way, `j` cycles nearer to `m_done`. -/
theorem transfer_along {n : ℕ} (hs : (run m T l e n).dmc.mStartReg = true) (j : ℕ)
    (hj : j ≤ fetchLen T (run m T l e n))
    (hreset : ∀ i < j, ∃ x, e (n + i) = .clock x) :
    ∃ q, Transfer m T q (run m T l e (n + j)) ∧ q ≠ .idle ∧ (0 < j → q ≠ .started) ∧
      left T q (run m T l e (n + j)) + j = fetchLen T (run m T l e n) ∧
      (run m T l e (n + j)).dmc.missAddrReg = (run m T l e n).dmc.missAddrReg := by
  obtain ⟨p, hp⟩ := exists_transfer (m := m) (T := T) (l := l) e n
  obtain rfl := phase_of_mStart hp hs
  obtain ⟨d, hd⟩ := transfer_iff.mp hp
  obtain ⟨x, hx⟩ := exists_clocks (m := m) (T := T) (l := l) hreset
  obtain ⟨q, hq, hi, hst, hleft, haddr, -⟩ := hd.along (by simp) x hj
  rw [hx]
  exact ⟨q, transfer_iff.mpr ⟨d, hq⟩, hi, hst, hleft, haddr⟩

/-- From an idle cycle on, the chain has stayed idle or there was an `m_start`. -/
theorem idle_or_mStart {a : ℕ} (ha : Transfer m T .idle (run m T l e a)) (k : ℕ) :
    Transfer m T .idle (run m T l e (a + k)) ∨
      ∃ i, 0 < i ∧ i ≤ k ∧ (run m T l e (a + i)).dmc.mStartReg = true := by
  induction k with
  | zero => exact Or.inl ha
  | succ k ih =>
    rcases ih with hk | ⟨i, hi0, hik, hi⟩
    · have hstep : run m T l e (a + (k + 1)) = (run m T l e (a + k)).step m T (e (a + k)) := by
        rw [← Nat.add_assoc, run, trace_succ]
      cases hx : e (a + k) with
      | reset =>
        left
        rw [hstep, hx]
        exact Transfer.reset _
      | clock x =>
        have hnext := hk.clock_idle (x := x)
        rw [hx] at hstep
        change _ = (run m T l e (a + k)).clock m T x at hstep
        rw [← hstep] at hnext
        -- an idle chain is left at an `m_start` only
        cases hw : (run m T l e (a + k)).wants x
        · rw [hw] at hnext
          exact Or.inl hnext
        · rw [hw] at hnext
          refine Or.inr ⟨k + 1, by omega, le_refl _, ?_⟩
          rw [hnext.phase.mStart]
          rfl
    · exact Or.inr ⟨i, hi0, by omega, hi⟩

/-- Neither `m_done` nor a read without an `m_start` after the chain was last idle. -/
theorem mStart_since_idle {a : ℕ} (ha : Transfer m T .idle (run m T l e a)) (d : ℕ)
    (hd : (run m T l e (a + d)).wrap.mDoneReg = true ∨ (run m T l e (a + d)).ReadOpens) :
    ∃ i, 0 < i ∧ i < d ∧ (run m T l e (a + i)).dmc.mStartReg = true := by
  rcases idle_or_mStart ha d with hidle | ⟨i, hi0, hid, hi⟩
  · exfalso
    rcases hd with hd | hd
    · rw [hidle.phase.mDone] at hd
      cases hd
    · exact ((readOpens_iff hidle).mp hd).1 rfl
  · refine ⟨i, hi0, lt_of_le_of_ne hid ?_, hi⟩
    -- in the cycle of `m_start` itself there is neither
    rintro rfl
    obtain ⟨p, hp⟩ := exists_transfer (m := m) (T := T) (l := l) e (a + i)
    obtain rfl := phase_of_mStart hp hi
    rcases hd with hd | hd
    · rw [hp.phase.mDone] at hd
      cases hd
    · have hleft := ((readOpens_iff hp).mp hd).2
      simp only [left, runLen] at hleft
      split_ifs at hleft <;> omega

/-- A fetch opens its read once, 142 cycles before its end. -/
theorem readOpens_along {n : ℕ} (hs : (run m T l e n).dmc.mStartReg = true) (j : ℕ)
    (hj : j ≤ fetchLen T (run m T l e n)) (hreset : ∀ i < j, ∃ x, e (n + i) = .clock x) :
    (run m T l e (n + j)).ReadOpens ↔ j + 142 = fetchLen T (run m T l e n) := by
  obtain ⟨q, hq, hi, -, hleft, -⟩ := transfer_along (m := m) (T := T) hs j hj hreset
  rw [readOpens_iff hq]
  constructor
  · rintro ⟨-, h142⟩
    omega
  · intro hjd
    exact ⟨hi, by omega⟩

/-- After a fetch the chain is idle, whatever the next event is. -/
theorem idle_after {n d : ℕ} {q : Phase} (hq : Transfer m T q (run m T l e (n + d)))
    (hi : q ≠ .idle) (hleft : left T q (run m T l e (n + d)) = 0) :
    Transfer m T .idle (run m T l e (n + d + 1)) := by
  have hdone : q = .done := by
    have hm := (mDone_iff hq hi).mpr hleft
    rw [hq.phase.mDone, decide_eq_true_iff] at hm
    exact hm
  subst hdone
  rw [run, trace_succ]
  cases e (n + d) with
  | reset => exact Transfer.reset _
  | clock x => exact hq.clock_done

/-! ## The contract -/

/-- **An `m_start` is served** `d` cycles later: until then there is exactly one read transaction,
to the line address, and no other `m_start`; then comes `m_done`, and neither another one nor
another read before the next `m_start`. -/
structure Served (s : ℕ → Slave 3 l) (n d : ℕ) : Prop where
  mDone : ∀ j ≤ d, (s (n + j)).wrap.mDoneReg = true ↔ j = d
  noStart : ∀ j, 0 < j → j ≤ d → (s (n + j)).dmc.mStartReg = false
  read : ∃ j < d, (s (n + j)).ReadOpens ∧
    ((s (n + j)).flash.step (s (n + j)).pins).addr = lineAddr (s n).dmc.missAddrReg
  readOnce : ∀ i < d, ∀ j < d, (s (n + i)).ReadOpens → (s (n + j)).ReadOpens → i = j
  notAgain : ∀ j, d < j → (s (n + j)).wrap.mDoneReg = true ∨ (s (n + j)).ReadOpens →
    ∃ i, d < i ∧ i < j ∧ (s (n + i)).dmc.mStartReg = true

/-- Without a reset in between, a fetch is served in `fetchLen` cycles. -/
theorem served {n : ℕ} (hs : (run m T l e n).dmc.mStartReg = true)
    (hreset : ∀ i < fetchLen T (run m T l e n), ∃ x, e (n + i) = .clock x) :
    Served (run m T l e) n (fetchLen T (run m T l e n)) := by
  have along := fun j hj => transfer_along (m := m) (T := T) hs j hj
    (fun i hi => hreset i (lt_of_lt_of_le hi hj))
  have hlen : 159 ≤ fetchLen T (run m T l e n) := by
    simp only [fetchLen, runLen]
    split_ifs <;> omega
  have opens := fun j hj => readOpens_along (m := m) (T := T) hs j hj
    (fun i hi => hreset i (lt_of_lt_of_le hi hj))
  -- only that `d` is at least 159 matters from here on
  generalize fetchLen T (run m T l e n) = d at along opens hlen
  refine ⟨?_, ?_, ?_, ?_, ?_⟩
  · intro j hj
    obtain ⟨q, hq, hi, -, hleft, -⟩ := along j hj
    rw [mDone_iff hq hi]
    omega
  · intro j h0 hj
    obtain ⟨q, hq, -, hst, -⟩ := along j hj
    rw [hq.phase.mStart]
    simpa using hst h0
  · have hopen := (opens (d - 142) (by omega)).mpr (by omega)
    obtain ⟨q, hq, -, -, -, haddr⟩ := along (d - 142) (by omega)
    exact ⟨d - 142, by omega, hopen, by rw [readOpens_addr hq hopen, haddr]⟩
  · intro i hi j hj hoi hoj
    have h1 := (opens i hi.le).mp hoi
    have h2 := (opens j hj.le).mp hoj
    omega
  · -- the next `m_done` or read has an `m_start` after the idle cycle
    intro j hj hd
    obtain ⟨q, hq, hi, -, hleft, -⟩ := along d (le_refl d)
    have hidle := idle_after hq hi (by omega)
    have hjd : n + j = n + d + 1 + (j - d - 1) := by omega
    rw [hjd] at hd
    obtain ⟨i, hi0, hij, hstart⟩ := mStart_since_idle hidle _ hd
    refine ⟨d + 1 + i, by omega, by omega, ?_⟩
    rw [show n + (d + 1 + i) = n + d + 1 + i by omega]
    exact hstart

end Slave

end KwsSoc.Xip
