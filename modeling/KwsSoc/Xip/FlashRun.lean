import KwsSoc.Xip.System

/-! # One flash transaction

How controller and flash go through a read transaction together: the controller's states have
fixed lengths (`FState.len`, `FlashCtrl.remaining`), and the flash collects the address nibbles, the
mode and the dummy clocks (`Tracks`). -/

namespace KwsSoc.Xip

/-! ## Lengths of the states -/

namespace FState

/-- Ticks spent in a state. -/
def len (T : TrstCycles) : FState → ℕ
  | .idle => 0
  | .cmd66 => 16
  | .wait66 => 4
  | .cmd99 => 16
  | .trstWait => T.val
  | .cmdEb => 16
  | .addr => 12
  | .mode => 4
  | .dummy => 8
  | .data => 128
  | .doneWait => 4

/-- The next state. -/
def succ : FState → FState
  | .idle => .idle
  | .cmd66 => .wait66
  | .wait66 => .cmd99
  | .cmd99 => .trstWait
  | .trstWait => .cmdEb
  | .cmdEb => .addr
  | .addr => .mode
  | .mode => .dummy
  | .dummy => .data
  | .data => .doneWait
  | .doneWait => .idle

/-- Ticks from the end of a state to `IDLE`. -/
def after (T : TrstCycles) : FState → ℕ
  | .idle => 0
  | .doneWait => 0
  | .data => 4
  | .dummy => 132
  | .mode => 140
  | .addr => 144
  | .cmdEb => 156
  | .trstWait => 172
  | .cmd99 => 172 + T.val
  | .wait66 => 188 + T.val
  | .cmd66 => 192 + T.val

theorem after_eq (T : TrstCycles) (q : FState) (h : q ≠ .idle) :
    q.after T = q.succ.after T + q.succ.len T := by
  cases q <;> simp_all [after, succ, len] <;> omega

/-- Only `IDLE` takes no ticks. -/
theorem len_pos (T : TrstCycles) {q : FState} (h : q ≠ .idle) : 0 < q.len T := by
  cases q
  case idle => exact absurd rfl h
  case trstWait => exact T.pos
  all_goals exact Nat.succ_pos _

/-- The tick counter is wide enough. -/
theorem len_le (T : TrstCycles) (q : FState) : q.len T ≤ 2 ^ 16 := by
  cases q
  case trstWait => exact T.fits
  all_goals exact Nat.le_of_ble_eq_true rfl

theorem succ_ne {q : FState} (h : q ≠ .idle) : q.succ ≠ q := by
  cases q
  case idle => exact absurd rfl h
  all_goals exact FState.noConfusion

/-- A transaction ends with `DONE_WAIT`. -/
theorem succ_ne_idle {q : FState} (h : q ≠ .idle) (hlast : q ≠ .doneWait) : q.succ ≠ .idle := by
  cases q
  case idle => exact absurd rfl h
  case doneWait => exact absurd rfl hlast
  all_goals exact FState.noConfusion

end FState

namespace FlashCtrl

variable {w : ℕ} {T : TrstCycles} {r : FlashCtrl w}

/-- The tick counter is within the present state, and fits its 16 bits. -/
def InTick (T : TrstCycles) (r : FlashCtrl w) : Prop :=
  r.state ≠ .idle ∧ r.phaseTick.toNat < r.state.len T

/-- Cycles until the controller is idle. -/
def remaining (T : TrstCycles) (r : FlashCtrl w) : ℕ :=
  r.state.after T + r.state.len T - r.phaseTick.toNat

/-- Until it is idle a cycle is left. -/
theorem InTick.remaining_pos (h : r.InTick T) : 0 < r.remaining T := by
  have hlt := h.2
  rw [remaining]
  omega

/-- A state is left at its last tick. -/
theorem nextState_eq (h : r.state ≠ .idle) (start : Bool) :
    r.nextState T start = if r.phaseTick.toNat + 1 = r.state.len T then r.state.succ
      else r.state := by
  have htick : ∀ k < 2 ^ 16, r.phaseTick = BitVec.ofNat 16 k ↔ r.phaseTick.toNat = k := by
    intro k hk
    rw [← BitVec.toNat_inj, BitVec.toNat_ofNat, Nat.mod_eq_of_lt hk]
  have h15 : r.phaseTick = 15 ↔ r.phaseTick.toNat = 15 := htick 15 (by decide)
  have h11 : r.phaseTick = 11 ↔ r.phaseTick.toNat = 11 := htick 11 (by decide)
  have h3 : r.phaseTick = 3 ↔ r.phaseTick.toNat = 3 := htick 3 (by decide)
  have h7 : r.phaseTick = 7 ↔ r.phaseTick.toNat = 7 := htick 7 (by decide)
  have h127 : r.phaseTick = 127 ↔ r.phaseTick.toNat = 127 := htick 127 (by decide)
  cases hs : r.state
  case idle => exact absurd hs h
  case trstWait =>
    rw [nextState, hs]
    rfl
  all_goals simp only [nextState, hs, h15, h11, h3, h7, h127, FState.len, FState.succ,
    Nat.reduceEqDiff]

/-- **A running controller** ticks on, or enters the next state. -/
theorem step_running (h : r.InTick T) (start : Bool) (di : BitVec 4) :
    (r.phaseTick.toNat + 1 = r.state.len T ∧ (r.step T start di).state = r.state.succ ∧
        (r.step T start di).phaseTick = 0) ∨
      (r.phaseTick.toNat + 1 < r.state.len T ∧ (r.step T start di).state = r.state ∧
        (r.step T start di).phaseTick.toNat = r.phaseTick.toNat + 1) := by
  obtain ⟨hs, ht⟩ := h
  have hlen := r.state.len_le T
  by_cases hl : r.phaseTick.toNat + 1 = r.state.len T
  · left
    have hnext : r.nextState T start = r.state.succ := by rw [nextState_eq hs, if_pos hl]
    exact ⟨hl, hnext, by rw [step, hnext, if_pos (FState.succ_ne hs).symm]⟩
  · right
    have hnext : r.nextState T start = r.state := by rw [nextState_eq hs, if_neg hl]
    refine ⟨by omega, hnext, ?_⟩
    simp only [step, hnext, ne_eq, not_true_eq_false, if_false, hs, not_false_eq_true, if_true]
    simp only [BitVec.ofNat_eq_ofNat, BitVec.toNat_add, BitVec.toNat_ofNat]
    omega

/-- Every cycle of a running controller counts `remaining` down, and it stays within its ticks
until it is idle. -/
theorem remaining_step (h : r.InTick T) (start : Bool)
    (di : BitVec 4) :
    (r.step T start di).remaining T + 1 = r.remaining T ∧
      ((r.step T start di).InTick T ∨
        ((r.step T start di).state = .idle ∧ r.state = .doneWait ∧ r.phaseTick = 3)) := by
  obtain ⟨hs, ht⟩ := h
  rcases step_running ⟨hs, ht⟩ start di with ⟨hl, hst, htk⟩ | ⟨hl, hst, htk⟩
  · have hafter := FState.after_eq T r.state hs
    refine ⟨?_, ?_⟩
    · simp only [remaining, hst, htk]
      simp only [BitVec.ofNat_eq_ofNat, BitVec.toNat_ofNat, Nat.zero_mod]
      omega
    · by_cases hd : r.state = .doneWait
      · right
        refine ⟨by rw [hst, hd]; rfl, hd, ?_⟩
        rw [hd] at hl
        apply BitVec.eq_of_toNat_eq
        simp only [FState.len] at hl
        simpa using hl
      · left
        have hne := FState.succ_ne_idle hs hd
        refine ⟨hst ▸ hne, ?_⟩
        rw [hst, htk]
        exact FState.len_pos T hne
  · refine ⟨?_, Or.inl ⟨by rw [hst]; exact hs, by rw [hst, htk]; exact hl⟩⟩
    simp only [remaining, hst, htk]
    omega

/-- `done` is raised in the last cycle of a transaction. -/
theorem doneReg_step (h : r.InTick T) (di : BitVec 4) :
    (r.step T false di).doneReg = (decide (r.remaining T = 1) || r.doneReg) := by
  have hlast : (r.state = .doneWait ∧ r.phaseTick = 3) ↔ r.remaining T = 1 := by
    have htick : r.phaseTick = 3 ↔ r.phaseTick.toNat = 3 := by
      rw [← BitVec.toNat_inj]
      rfl
    obtain ⟨hs, hlt⟩ := h
    rw [htick, remaining]
    cases hq : r.state <;> rw [hq] at hlt <;> simp_all [FState.len, FState.after] <;> omega
  simp only [step, Bool.false_eq_true, if_false, hlast]
  by_cases h1 : r.remaining T = 1 <;> simp [h1]

/-- An idle controller without `start` stays as it is. -/
theorem idle_step (hr : r.state = .idle) (di : BitVec 4) :
    (r.step T false di).state = .idle ∧ (r.step T false di).doneReg = r.doneReg := by
  refine ⟨?_, ?_⟩
  · simp only [step, nextState, hr, Bool.false_eq_true, if_false]
  · simp [step, hr]

/-- `start` begins a run of a transaction. -/
theorem start_step (hr : r.state = .idle) (di : BitVec 4) :
    (r.step T true di).InTick T ∧ (r.step T true di).doneReg = false ∧
      (r.step T true di).remaining T = (if r.isFirst then 208 + T.val else 156) ∧
      (r.step T true di).phaseTick = 0 ∧
      (r.step T true di).state = (if r.isFirst then .cmd66 else .addr) := by
  have hnext : r.nextState T true = if r.isFirst then .cmd66 else .addr := by
    rw [nextState, hr]
    rfl
  have hstate : (r.step T true di).state = if r.isFirst then .cmd66 else .addr := hnext
  have htick : (r.step T true di).phaseTick = 0 := by
    simp only [step, hnext, hr]
    cases r.isFirst <;> simp
  refine ⟨⟨?_, ?_⟩, rfl, ?_, htick, hstate⟩
  · rw [hstate]
    cases r.isFirst <;> simp
  · rw [hstate, htick]
    cases r.isFirst <;> simp [FState.len]
  · rw [remaining, hstate, htick]
    cases r.isFirst <;> simp [FState.len, FState.after]
    omega

end FlashCtrl

/-! ## The flash along a transaction -/

section Tracks

variable {w : ℕ} {T : TrstCycles} {r : FlashCtrl w} {f : SpiFlash} {a : BitVec 24}

/-- What the flash has seen of a transaction at address `a`, by controller state and tick. -/
def Tracks (a : BitVec 24) (r : FlashCtrl w) (f : SpiFlash) : Prop :=
  (r.phaseTick.toNat % 2 = 1 → f.prevSck = false) ∧
    match r.state with
    | .idle | .doneWait => True
    | .addr => f.nNib = r.phaseTick.toNat / 2 ∧ f.nClk = 0 ∧
        f.addr.toNat = a.toNat / 16 ^ (6 - r.phaseTick.toNat / 2)
    | .mode => f.nNib = 6 + r.phaseTick.toNat / 2 ∧ f.nClk = 0 ∧ f.addr = a
    | .dummy => f.nNib = 8 ∧ f.nClk = r.phaseTick.toNat / 2 ∧ f.addr = a
    | .data => f.nNib = 8 ∧ f.nClk = 4 + r.phaseTick.toNat / 2 ∧ f.addr = a
    | _ => f.nNib = 0 ∧ f.nClk = 0 ∧ f.addr = 0

theorem getLsbD_zero_iff (t : BitVec 16) : t.getLsbD 0 = true ↔ t.toNat % 2 = 1 := by
  rw [BitVec.getLsbD, Nat.testBit_zero, decide_eq_true_iff]

theorem getLsbD_one_iff (t : BitVec 16) : t.getLsbD 1 = true ↔ 2 ≤ t.toNat % 4 := by
  rw [BitVec.getLsbD, Nat.testBit_eq_decide_div_mod_eq, decide_eq_true_iff]
  omega

/-- A deselected flash forgets. -/
theorem flash_step_inactive (h : r.active = false) :
    f.step (r.pins a) = .deselected := by
  simp [SpiFlash.step, FlashCtrl.pins, h]

/-- While SCK is low nothing is clocked in. -/
theorem flash_step_even (h : r.active = true) (ht : r.phaseTick.toNat % 2 = 0) :
    f.step (r.pins a) = { f with prevSck := false } := by
  have hodd : r.phaseTick.getLsbD 0 = false := by
    rw [Bool.eq_false_iff, ne_eq, getLsbD_zero_iff]
    omega
  simp only [SpiFlash.step, SpiFlash.rising, FlashCtrl.pins, h, hodd, Bool.not_true,
    Bool.true_and, Bool.false_and, Bool.false_eq_true, if_false]

/-- A rising edge clocks in what is driven. -/
theorem flash_step_odd (h : r.active = true) (ht : r.phaseTick.toNat % 2 = 1)
    (hp : f.prevSck = false) :
    f.step (r.pins a) =
      if r.doe = 0b1111 then
        { prevSck := true, nNib := f.nNib + 1, nClk := f.nClk
          addr := if f.nNib < 6 then f.addr.extractLsb' 0 20 ++ r.spiDo a else f.addr }
      else if r.doe = 0b0000 then { f with prevSck := true, nClk := f.nClk + 1 }
      else { f with prevSck := true } := by
  have hodd : r.phaseTick.getLsbD 0 = true := (getLsbD_zero_iff _).mpr ht
  simp only [SpiFlash.step, SpiFlash.rising, FlashCtrl.pins, h, hodd, hp, Bool.not_true,
    Bool.not_false, Bool.and_self, Bool.false_eq_true, if_false, if_true]

/-- The address nibbles, most significant first. -/
theorem spiDo_addr (hs : r.state = .addr) (ht : r.phaseTick.toNat < 12) :
    (r.spiDo a).toNat = a.toNat / 16 ^ (5 - r.phaseTick.toNat / 2) % 16 := by
  have hsel : r.phaseTick.extractLsb' 1 3 = BitVec.ofNat 3 (r.phaseTick.toNat / 2) := by
    apply BitVec.eq_of_toNat_eq
    rw [BitVec.extractLsb'_toNat, BitVec.toNat_ofNat, Nat.shiftRight_eq_div_pow]
  have hj : r.phaseTick.toNat / 2 < 6 := by omega
  rw [FlashCtrl.spiDo, hs, hsel]
  interval_cases r.phaseTick.toNat / 2 <;>
    simp [BitVec.extractLsb'_toNat, Nat.shiftRight_eq_div_pow]

/-- One more nibble of the address is in. -/
theorem addr_shift (hs : r.state = .addr) (ht : r.phaseTick.toNat < 12)
    (hf : f.addr.toNat = a.toNat / 16 ^ (6 - r.phaseTick.toNat / 2)) :
    (f.addr.extractLsb' 0 20 ++ r.spiDo a : BitVec 24).toNat =
      a.toNat / 16 ^ (5 - r.phaseTick.toNat / 2) := by
  have hlt := (r.spiDo a).isLt
  have ha := a.isLt
  have hcat : (f.addr.extractLsb' 0 20 ++ r.spiDo a : BitVec 24).toNat =
      f.addr.toNat % 2 ^ 20 * 16 + (r.spiDo a).toNat := by
    rw [BitVec.toNat_append, Nat.shiftLeft_eq, Nat.mul_comm, ← Nat.two_pow_add_eq_or_of_lt hlt,
      BitVec.extractLsb'_toNat, Nat.shiftRight_zero]
    ring
  rw [hcat, hf, spiDo_addr hs ht]
  have hj : r.phaseTick.toNat / 2 < 6 := by omega
  -- one case for each of the six nibbles
  interval_cases r.phaseTick.toNat / 2 <;> norm_num <;> omega

/-- One cycle of an active transaction, count by count. -/
theorem flash_step_active (h : r.active = true)
    (hp : r.phaseTick.toNat % 2 = 1 → f.prevSck = false) :
    (f.step (r.pins a)).nNib =
        f.nNib + (if r.phaseTick.toNat % 2 = 1 ∧ r.doe = 0b1111 then 1 else 0) ∧
      (f.step (r.pins a)).nClk =
        f.nClk + (if r.phaseTick.toNat % 2 = 1 ∧ r.doe = 0b0000 then 1 else 0) ∧
      (f.step (r.pins a)).addr =
        if r.phaseTick.toNat % 2 = 1 ∧ r.doe = 0b1111 ∧ f.nNib < 6 then
          f.addr.extractLsb' 0 20 ++ r.spiDo a
        else f.addr := by
  rcases Nat.mod_two_eq_zero_or_one r.phaseTick.toNat with ht | ht
  · rw [flash_step_even h ht]
    simp [ht]
  · rw [flash_step_odd h ht (hp ht)]
    simp only [ht, true_and]
    -- the pins are driven on four lines, on none, or as in a command
    by_cases h1 : r.doe = 0b1111#4
    · simp [h1]
    · by_cases h0 : r.doe = 0b0000#4
      · simp [h0]
      · simp [h1, h0]

/-- SCK is low before every odd tick. -/
theorem prevSck_step (hin : r.InTick T) (start : Bool) (di : BitVec 4)
    (ho : (r.step T start di).phaseTick.toNat % 2 = 1) :
    (f.step (r.pins a)).prevSck = false := by
  -- a new state begins with tick 0, and an odd tick follows an even one
  rcases FlashCtrl.step_running hin start di with ⟨-, -, htk⟩ | ⟨-, -, htk⟩
  · rw [htk] at ho
    simp at ho
  · cases hact : r.active with
    | true => rw [flash_step_even hact (by omega)]
    | false => rw [flash_step_inactive hact, SpiFlash.deselected]

/-- A tick of `ADDR`: the odd ones shift in a nibble of the address. -/
theorem tracks_addr (h : Tracks a r f) (hin : r.InTick T) (hq : r.state = .addr) (start : Bool)
    (di : BitVec 4) : Tracks a (r.step T start di) (f.step (r.pins a)) := by
  refine ⟨prevSck_step hin start di, ?_⟩
  obtain ⟨hp, hst⟩ := h
  have hcases := FlashCtrl.step_running hin start di
  have hlt := hin.2
  have hact : r.active = true := by rw [FlashCtrl.active, hq]
  have hd : r.doe = 0b1111#4 := by rw [FlashCtrl.doe, hq]; rfl
  obtain ⟨hn, hc, ha⟩ := flash_step_active (a := a) hact hp
  rw [hq] at hcases hst hlt
  simp only [FState.len, FState.succ] at hcases hlt
  simp only at hst
  obtain ⟨hfn, hfc, hfa⟩ := hst
  have hsh := addr_shift (a := a) hq hlt hfa
  have hn6 : f.nNib < 6 := by omega
  simp only [hd, and_true, hn6] at hn hc ha
  rcases Nat.mod_two_eq_zero_or_one r.phaseTick.toNat with ht | ht
  · -- an even tick: nothing is clocked in, and it is not the last one
    simp [ht] at hn hc ha
    rcases hcases with ⟨hl, -, -⟩ | ⟨-, hs', htk⟩
    · omega
    · rw [hs', htk, show (r.phaseTick.toNat + 1) / 2 = r.phaseTick.toNat / 2 by omega]
      exact ⟨hn.trans hfn, hc.trans hfc, by rw [ha, hfa]⟩
  · simp [ht] at hn hc ha
    rw [← ha] at hsh
    rcases hcases with ⟨hl, hs', htk⟩ | ⟨-, hs', htk⟩
    · -- the sixth nibble completes the address
      have h11 : r.phaseTick.toNat = 11 := by omega
      rw [hs', htk]
      refine ⟨by rw [hn, hfn, h11]; rfl, hc.trans hfc, ?_⟩
      apply BitVec.eq_of_toNat_eq
      rw [hsh, h11]
      simp
    · have hhalf : (r.phaseTick.toNat + 1) / 2 = r.phaseTick.toNat / 2 + 1 := by omega
      rw [hs', htk, hhalf]
      refine ⟨by rw [hn, hfn], hc.trans hfc, ?_⟩
      rw [hsh]
      congr 2
      omega

/-- **Step lemma for the flash**: along a transaction it keeps track of the controller. -/
theorem tracks_step (h : Tracks a r f) (hin : r.InTick T) (start : Bool)
    (di : BitVec 4) : Tracks a (r.step T start di) (f.step (r.pins a)) := by
  refine ⟨prevSck_step hin start di, ?_⟩
  have ⟨hp, hst⟩ := h
  have hcases := FlashCtrl.step_running hin start di
  have hlt := hin.2
  cases hq : r.state
  case idle => exact absurd hq hin.1
  case wait66 | trstWait =>
    have hact : r.active = false := by rw [FlashCtrl.active, hq]
    rw [flash_step_inactive hact]
    rw [hq] at hcases
    rcases hcases with ⟨-, hs', -⟩ | ⟨-, hs', -⟩ <;> rw [hs'] <;> exact ⟨rfl, rfl, rfl⟩
  case doneWait =>
    rw [hq] at hcases
    rcases hcases with ⟨-, hs', -⟩ | ⟨-, hs', -⟩ <;> rw [hs'] <;> trivial
  case addr => exact (tracks_addr h hin hq start di).2
  -- the states in which the flash is selected
  all_goals
    have hact : r.active = true := by rw [FlashCtrl.active, hq]
    obtain ⟨hn, hc, ha⟩ := flash_step_active (a := a) hact hp
    rw [hq] at hcases hst hlt
    simp only [FState.len, FState.succ] at hcases hlt
    simp only at hst
    obtain ⟨hfn, hfc, hfa⟩ := hst
  case cmd66 | cmd99 =>
    have hd : r.doe = 0b1101#4 := by rw [FlashCtrl.doe, hq]; rfl
    simp [hd] at hn hc ha
    rcases hcases with ⟨-, hs', -⟩ | ⟨-, hs', -⟩ <;> rw [hs'] <;>
      exact ⟨hn.trans hfn, hc.trans hfc, ha.trans hfa⟩
  case cmdEb =>
    have hd : r.doe = 0b1101#4 := by rw [FlashCtrl.doe, hq]; rfl
    simp [hd] at hn hc ha
    rcases hcases with ⟨-, hs', htk⟩ | ⟨-, hs', -⟩ <;> rw [hs']
    -- no nibble of the address has been sent yet
    · have hzero : a.toNat / 16 ^ 6 = 0 := Nat.div_eq_of_lt a.isLt
      rw [htk, ha, hfa]
      exact ⟨hn.trans hfn, hc.trans hfc, hzero.symm⟩
    · exact ⟨hn.trans hfn, hc.trans hfc, ha.trans hfa⟩
  case mode =>
    have hd : r.doe = 0b1111#4 := by rw [FlashCtrl.doe, hq]; rfl
    have hn6 : ¬ f.nNib < 6 := by omega
    simp [hd, hn6] at hn hc ha
    rcases hcases with ⟨hl, hs', htk⟩ | ⟨-, hs', htk⟩ <;> rw [hs', htk]
    · refine ⟨?_, hc.trans hfc, ha.trans hfa⟩
      rw [hn, if_pos (by omega)]
      omega
    · refine ⟨?_, hc.trans hfc, ha.trans hfa⟩
      rw [hn]
      split_ifs <;> omega
  case dummy =>
    have hd : r.doe = 0b0000#4 := by rw [FlashCtrl.doe, hq]; rfl
    simp [hd] at hn hc ha
    rcases hcases with ⟨hl, hs', htk⟩ | ⟨-, hs', htk⟩ <;> rw [hs', htk]
    · refine ⟨hn.trans hfn, ?_, ha.trans hfa⟩
      rw [hc, if_pos (by omega), hfc]
      simp only [BitVec.ofNat_eq_ofNat, BitVec.toNat_ofNat]
      omega
    · refine ⟨hn.trans hfn, ?_, ha.trans hfa⟩
      rw [hc]
      split_ifs <;> omega
  case data =>
    have hd : r.doe = 0b0000#4 := by rw [FlashCtrl.doe, hq]; rfl
    simp [hd] at hn hc ha
    rcases hcases with ⟨-, hs', -⟩ | ⟨-, hs', htk⟩ <;> rw [hs']
    · trivial
    · rw [htk]
      refine ⟨hn.trans hfn, ?_, ha.trans hfa⟩
      rw [hc]
      split_ifs <;> omega

end Tracks

end KwsSoc.Xip
