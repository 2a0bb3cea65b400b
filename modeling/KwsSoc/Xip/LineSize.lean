import KwsSoc.Xip.LineFetch

/-! # Line sizes

`ro_dmc`, the wrapper and the controller take the line size as a parameter, here `2 ^ (w + 2)`
bytes. The data phase takes 128 ticks and the address is cut off below bit 5 for every size, so that
a fetch brings the 32-byte block of the miss address: `line_of_completes`. A shorter line is
overwritten from its first place on and ends up with the last line of the block, a longer one keeps
what it held from byte 32 on. `delivers_iff` says for which sizes and addresses this is the line. -/

namespace KwsSoc.Xip

open SyncMachine

namespace Slave

variable {w l : ℕ} {m : FlashMem} {T : TrstCycles} {d : Line w} {s : Slave w l} {x : XipIn}
  {p : Phase} {a : BitVec 32}

/-! ## Complete lines -/

/-- `d` is the line of address `a`: its bytes, each at its place. -/
def HoldsLine (m : FlashMem) (a : BitVec 32) (d : Line w) : Prop :=
  ∀ j : BitVec (w + 2),
    d j = m (BitVec.ofNat 24 (a.toNat / 2 ^ (w + 2) * 2 ^ (w + 2) + j.toNat))

/-- `done` rises, or `m_done` is up. -/
def Completes (s s' : Slave w l) : Prop :=
  (s.ctrl.doneReg = false ∧ s'.ctrl.doneReg = true) ∨ s'.wrap.mDoneReg = true

/-- **A fetch for address `a` delivers its line**, whatever the flash holds and whatever has
happened before: when `done` rises and at `m_done` the line is in `D`. -/
def Delivers (w l : ℕ) (a : BitVec 32) : Prop :=
  ∀ (m : FlashMem) (T : TrstCycles) (e : ℕ → Event) (n : ℕ),
    Completes (trace (step m T) (powerOn w l) e n) (trace (step m T) (powerOn w l) e (n + 1)) →
      (trace (step m T) (powerOn w l) e (n + 1)).dmc.missAddrReg = a →
        HoldsLine m a (trace (step m T) (powerOn w l) e (n + 1)).ctrl.dataReg

/-- Only a running controller raises `done`. -/
theorem running_of_done_rises (h : Fetching m T d p s) (h0 : s.ctrl.doneReg = false)
    (h1 : (s.clock m T x).ctrl.doneReg = true) : p = .running := by
  have hkeep : s.ctrl.state = .idle → (s.clock m T x).ctrl.doneReg = false := by
    intro hs
    rw [clock]
    cases hstart : s.wrap.flashStartReg with
    | false => exact (FlashCtrl.idle_step hs _).2.trans h0
    | true => rfl
  cases p
  case running => rfl
  all_goals
    have hidle : s.ctrl.state = .idle := by
      first | exact h.phase.ctrl | exact h.phase.ctrl.1
    rw [hkeep hidle] at h1
    cases h1

/-- The address at the controller is that of the 32-byte block. -/
theorem ctrlAddr_toNat (s : Slave w l) :
    s.ctrlAddr = BitVec.ofNat 24 (s.dmc.missAddrReg.toNat / 32 * 32) := by
  apply BitVec.eq_of_toNat_eq
  rw [ctrlAddr, BitVec.toNat_append, Nat.shiftLeft_eq, BitVec.extractLsb'_toNat,
    Nat.shiftRight_eq_div_pow, BitVec.toNat_ofNat, BitVec.toNat_ofNat]
  simp only [Nat.zero_mod, Nat.or_zero]
  omega

/-- **The 32 bytes of the block**, in the order in which they come. -/
theorem byteAt_block (m : FlashMem) (s : Slave w l) (k : ℕ) :
    byteAt (SpiFlash.nibble m s.ctrlAddr) k =
      m (BitVec.ofNat 24 (s.dmc.missAddrReg.toNat / 32 * 32 + k)) := by
  rw [byteAt_nibble, ctrlAddr_toNat, BitVec.ofNat_add]

/-- **What a complete fetch has put in the line**, from some older contents `d`. -/
theorem line_of_completes (h : Fetching m T d p s) (e : Event) (hc : Completes s (s.step m T e)) :
    ∃ d', (s.step m T e).ctrl.dataReg =
      landed (SpiFlash.nibble m (s.step m T e).ctrlAddr) d' 32 := by
  rcases hc with ⟨h0, h1⟩ | hdone
  · cases e with
    | reset => cases h1
    | clock x =>
      obtain rfl := running_of_done_rises h h0 h1
      rcases h.clock_running (x := x) with ⟨hq, -⟩ | ⟨hq, -⟩
      · -- still running, and `done` is down
        have hlow : (s.clock m T x).ctrl.doneReg = false := hq.phase.ctrl.2
        rw [step, hlow] at h1
        cases h1
      · exact ⟨d, hq.line (Or.inl rfl)⟩
  · obtain ⟨d', q, hq⟩ := Fetching.exists_step ⟨d, p, h⟩ e
    rw [hq.phase.mDone, decide_eq_true_iff] at hdone
    exact ⟨d', hq.line (Or.inr hdone)⟩

/-! ## When the block is enough -/

/-- The line of `a` is the last one of its 32-byte block, and no longer than it. -/
def LastOfBlock (w : ℕ) (a : BitVec 32) : Prop :=
  w ≤ 3 ∧ 32 ≤ a.toNat % 32 + 2 ^ (w + 2)

instance (w : ℕ) (a : BitVec 32) : Decidable (LastOfBlock w a) :=
  inferInstanceAs (Decidable (_ ∧ _))

/-- A line that is not longer than the block is written over and over, and holds its last bytes. -/
theorem landed_block (hw : w ≤ 3) (nib : ℕ → BitVec 4) (d : Line w) (j : BitVec (w + 2)) :
    landed nib d 32 j = byteAt nib (32 - 2 ^ (w + 2) + j.toNat) := by
  have hj := j.isLt
  have hrounds : 2 ^ (w + 2) * (32 / 2 ^ (w + 2) - 1) = 32 - 2 ^ (w + 2) ∧
      2 ^ (w + 2) ≤ 32 := by
    interval_cases w <;> decide
  rw [landed_eq (q := 32 / 2 ^ (w + 2) - 1) (by omega) (by rw [Nat.mul_succ]; omega), hrounds.1]

/-- The last line of the block is what remains of it. -/
theorem holdsLine_landed (h : LastOfBlock w s.dmc.missAddrReg) (d : Line w) :
    HoldsLine m s.dmc.missAddrReg (landed (SpiFlash.nibble m s.ctrlAddr) d 32) := by
  obtain ⟨hw, ha⟩ := h
  intro j
  have hbase : s.dmc.missAddrReg.toNat / 2 ^ (w + 2) * 2 ^ (w + 2) =
      s.dmc.missAddrReg.toNat / 32 * 32 + (32 - 2 ^ (w + 2)) := by
    interval_cases w <;> omega
  rw [landed_block hw, byteAt_block, hbase, Nat.add_assoc]

/-- **Line sizes for which every fetch delivers.** -/
theorem delivers_of_lastOfBlock (h : LastOfBlock w a) : Delivers w l a := by
  intro m T e n hc ha
  have hinv : ∃ d p, Fetching m T d p (trace (step m T) (powerOn w l) e n) :=
    trace_invariant (fun s => ∃ d p, Fetching m T d p s) ⟨_, _, Fetching.powerOn⟩
      (fun n h => Fetching.exists_step h (e n)) n
  obtain ⟨d, p, hp⟩ := hinv
  rw [trace_succ] at hc ha ⊢
  obtain ⟨d', hline⟩ := line_of_completes hp (e n) hc
  rw [hline, ← ha]
  exact holdsLine_landed (by rw [ha]; exact h) d'

/-! ## When it is not -/

/-- **Line sizes for which some fetch does not deliver.** -/
theorem not_delivers_of_not_lastOfBlock (l : ℕ) (h : ¬ LastOfBlock w a) : ¬ Delivers w l a := by
  intro hdel
  have hall : ∀ m : FlashMem, HoldsLine m a
      (landed (w := w) (SpiFlash.nibble m (BitVec.ofNat 24 (a.toNat / 32 * 32))) (fun _ => 0)
        32) := by
    intro m
    obtain ⟨n, s, hs, hdone, haddr, hline, -⟩ :=
      exists_first_fetch w l m ⟨1, by decide, by decide⟩ a
    have hd := hdel m ⟨1, by decide, by decide⟩ (fun k => .clock (readOf a k)) n
    rw [hs] at hd
    have hholds := hd (Or.inr hdone) haddr
    rwa [hline, ctrlAddr_toNat, haddr] at hholds
  by_cases hw : w ≤ 3
  · -- another line of the block comes last: a flash in which the two differ
    have hlt : a.toNat % 32 + 2 ^ (w + 2) < 32 := by
      by_contra hge
      exact h ⟨hw, Nat.le_of_not_lt hge⟩
    have hne : BitVec.ofNat 24 (a.toNat / 32 * 32 + (32 - 2 ^ (w + 2))) ≠
        BitVec.ofNat 24 (a.toNat / 2 ^ (w + 2) * 2 ^ (w + 2)) := by
      rw [ne_eq, ← BitVec.toNat_inj, BitVec.toNat_ofNat, BitVec.toNat_ofNat]
      interval_cases w <;> omega
    have hbyte := hall
      (fun b => if b = BitVec.ofNat 24 (a.toNat / 2 ^ (w + 2) * 2 ^ (w + 2)) then 1 else 0) 0
    have hzero : (0 : BitVec (w + 2)).toNat = 0 := BitVec.toNat_zero
    rw [landed_block hw, byteAt_nibble] at hbyte
    simp only [hzero, Nat.add_zero, ← BitVec.ofNat_add, if_neg hne, if_true] at hbyte
    cases hbyte
  · -- the bytes from 32 on are never written: a flash of ones
    have hpow : 2 ^ 6 ≤ 2 ^ (w + 2) := Nat.pow_le_pow_right (by decide) (by omega)
    have hj : (BitVec.ofNat (w + 2) 32).toNat = 32 := by
      rw [BitVec.toNat_ofNat, Nat.mod_eq_of_lt (by omega)]
    have hone := hall (fun _ => 1) (BitVec.ofNat (w + 2) 32)
    rw [landed_of_le (by rw [hj])] at hone
    cases hone

/-- **Where the code delivers**: in the lines that come last in their 32-byte block, and no longer
than it. -/
theorem delivers_iff (w l : ℕ) (a : BitVec 32) : Delivers w l a ↔ LastOfBlock w a := by
  constructor
  · intro hdel
    by_contra h
    exact not_delivers_of_not_lastOfBlock l h hdel
  · exact delivers_of_lastOfBlock

/-- For all addresses that is the shipped line size only. -/
theorem lastOfBlock_all_iff : (∀ a, LastOfBlock w a) ↔ w = 3 := by
  constructor
  · intro h
    obtain ⟨hw, h0⟩ := h 0
    interval_cases w <;> simp_all
  · rintro rfl a
    refine ⟨le_rfl, ?_⟩
    norm_num

/-- A line of 64 bytes, as `ro_dmc` has it by default. -/
theorem long_line_not_delivered : ¬ Delivers 4 6 0 :=
  not_delivers_of_not_lastOfBlock 6 (by decide)

end Slave

end KwsSoc.Xip
