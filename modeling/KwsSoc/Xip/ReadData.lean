import KwsSoc.Xip.Fetch

/-! # What a read returns

The contents of the cache are lines of the flash: `Dmc.Ok` for the main cache, the prefetch
buffer and the registers of a demand fetch, `EarlyOk` for the words of a line under fetch. Both are
kept by every step, so that `read_data` holds in every run: a read that is not stalled returns the
flash word at its address. -/

namespace KwsSoc.Xip

open ByteWord SyncMachine

/-! ## Lines of the flash -/

section Lines

variable {l : ℕ} {m : FlashMem} {a b : BitVec 32} {d : Line 3}

/-- `d` is the flash line of address `a`. -/
def LineOf (m : FlashMem) (a : BitVec 32) (d : Line 3) : Prop := ∀ k, d k = lineByte m a k

/-- The four bytes of word `k` in `d` are those of the line of `a`. -/
def WordOf (m : FlashMem) (a : BitVec 32) (d : Line 3) (k : BitVec 3) : Prop :=
  ∀ j : BitVec 2, d (k ++ j) = lineByte m a (k ++ j)

theorem LineOf.wordOf (h : LineOf m a d) (k : BitVec 3) : WordOf m a d k := by
  intro j
  exact h (k ++ j)

/-- Line number and tag determine the line address. -/
theorem lineAddr_congr (hl : lineNo 3 l a = lineNo 3 l b) (ht : tagOf 3 l a = tagOf 3 l b) :
    lineAddr a = lineAddr b := by
  have hbit : ∀ i < 19, a.getLsbD (5 + i) = b.getLsbD (5 + i) := by
    intro i hi
    by_cases hil : i < l
    · -- a bit of the line number
      have h := congrArg (fun v => v.getLsbD i) hl
      simpa [lineNo, hil] using h
    · -- a bit of the tag
      have h := congrArg (fun v => v.getLsbD (i - l)) ht
      have hw : i - l < tagWidth 3 l := by
        simp only [tagWidth]
        omega
      have hidx : l + (3 + 2) + (i - l) = 5 + i := by omega
      simpa [tagOf, hw, hidx] using h
  have hext : a.extractLsb' 5 19 = b.extractLsb' 5 19 := by
    apply BitVec.eq_of_getLsbD_eq
    intro i hi
    simpa [hi] using hbit i hi
  rw [lineAddr, hext, lineAddr]

theorem LineOf.congr (h : LineOf m a d) (hl : lineNo 3 l a = lineNo 3 l b)
    (ht : tagOf 3 l a = tagOf 3 l b) : LineOf m b d := by
  intro k
  rw [h k, lineByte, lineByte, lineAddr_congr hl ht]

theorem WordOf.congr {k : BitVec 3} (h : WordOf m a d k) (hl : lineNo 3 l a = lineNo 3 l b)
    (ht : tagOf 3 l a = tagOf 3 l b) : WordOf m b d k := by
  intro j
  rw [h j, lineByte, lineByte, lineAddr_congr hl ht]

/-- Byte `j` of the word at address `a`, within its line and word aligned. -/
theorem lineAddr_add (a : BitVec 32) (j : BitVec 2) :
    lineAddr a + (wordNo 3 a ++ j).setWidth 24 =
      (a.extractLsb' 2 22 ++ 0#2 : BitVec 24) + j.setWidth 24 := by
  have hcat : ∀ (n : ℕ) (u : BitVec n) (v : BitVec 2),
      (u ++ v : BitVec (n + 2)).toNat = u.toNat * 4 + v.toNat := by
    intro n u v
    rw [BitVec.toNat_append, Nat.shiftLeft_eq, Nat.mul_comm,
      ← Nat.two_pow_add_eq_or_of_lt v.isLt, Nat.mul_comm]
  have hline : (lineAddr a).toNat = a.toNat / 32 % 2 ^ 19 * 32 := by
    rw [lineAddr, BitVec.toNat_append, Nat.shiftLeft_eq, BitVec.extractLsb'_toNat,
      Nat.shiftRight_eq_div_pow]
    simp
  have hj := j.isLt
  apply BitVec.eq_of_toNat_eq
  rw [BitVec.toNat_add, BitVec.toNat_add, hline, BitVec.toNat_setWidth, BitVec.toNat_setWidth,
    hcat, hcat, wordNo, BitVec.extractLsb'_toNat, BitVec.extractLsb'_toNat,
    Nat.shiftRight_eq_div_pow]
  simp only [BitVec.toNat_ofNat]
  omega

/-- The word of an address, read out of its line. -/
theorem WordOf.word (h : WordOf m a d (wordNo 3 a)) : d.word (wordNo 3 a) = flashWord m a := by
  have hbyte : ∀ j : BitVec 2,
      d (wordNo 3 a ++ j) = m ((a.extractLsb' 2 22 ++ 0#2 : BitVec 24) + j.setWidth 24) := by
    intro j
    rw [h j, lineByte, lineAddr_add]
  rw [Line.word, hbyte, hbyte, hbyte, hbyte, flashWord]
  simp

end Lines

/-! ## The cache -/

namespace Dmc

variable {l : ℕ} {m : FlashMem} {r : Dmc 3 l} {x : DmcIn 3}

/-- **The cache invariant.** A valid line and a valid prefetch buffer hold the flash line that
their tag names; during a demand fetch the line under fetch is invalid. -/
structure Ok (m : FlashMem) (r : Dmc 3 l) : Prop where
  main : ∀ n, r.valid n = true →
    ∃ a, lineNo 3 l a = n ∧ tagOf 3 l a = r.tag n ∧ LineOf m a (r.data n)
  pf : r.pfValid = true →
    ∃ a, lineNo 3 l a = r.pfLine ∧ tagOf 3 l a = r.pfTag ∧ LineOf m a r.pfData
  invalid : r.fetching = true → r.fetchIsPf = false → r.valid r.fetchLineReg = false
  fetchLine : r.fetching = true → r.fetchLineReg = lineNo 3 l r.missAddrReg
  fetchTag : r.fetching = true → r.fetchTagReg = tagOf 3 l r.missAddrReg

/-- The words of the line under a demand fetch that may be read early. -/
def EarlyOk (m : FlashMem) (r : Dmc 3 l) : Prop :=
  r.fetching = true → r.fetchIsPf = false → ∀ k, r.fwv k = true →
    WordOf m r.missAddrReg (r.data r.fetchLineReg) k

theorem ok_powerOn : (powerOn 3 l).Ok m := by
  constructor <;> simp [powerOn]

/-- Reset keeps the valid lines, and what they hold. -/
theorem Ok.reset (h : r.Ok m) : r.reset.Ok m := by
  constructor
  · exact h.main
  all_goals simp [Dmc.reset]

theorem Ok.demand (h : r.Ok m) (a : BitVec 32) : (r.demand a).Ok m := by
  constructor
  · intro n hn
    by_cases hna : n = lineNo 3 l a
    · simp [Dmc.demand, hna] at hn
    · simp only [Dmc.demand, Function.update_of_ne hna] at hn
      exact h.main n hn
  · exact h.pf
  · intro _ _
    simp [Dmc.demand]
  · intro _
    rfl
  · intro _
    rfl

theorem Ok.prefetch (h : r.Ok m) : r.prefetch.Ok m := by
  constructor
  · exact h.main
  · exact h.pf
  · intro _ hpf
    cases hpf
  · intro _
    rfl
  · intro _
    rfl

theorem Ok.stepIdle (h : r.Ok m) : (r.stepIdle x).Ok m := by
  rw [Dmc.stepIdle]
  split
  · exact h.demand _
  · split
    · exact h.demand _
    · split
      · exact h.prefetch
      · exact h

/-- A completed line is published where its fetch belongs. -/
theorem Ok.finish (h : r.Ok m) (hf : r.fetching = true) {d : Line 3}
    (hd : LineOf m r.missAddrReg d) (hdata : r.fetchIsPf = false → r.data r.fetchLineReg = d) :
    (r.finish d).Ok m := by
  rw [Dmc.finish]
  split
  case isTrue hpf =>
    refine ⟨h.main, ?_, ?_, ?_, ?_⟩
    · intro _
      exact ⟨r.missAddrReg, rfl, rfl, hd⟩
    all_goals
      intro hf'
      cases hf'
  case isFalse hpf =>
    have hpf' : r.fetchIsPf = false := by simpa using hpf
    refine ⟨?_, h.pf, ?_, ?_, ?_⟩
    · intro n hn
      by_cases hna : n = lineNo 3 l r.missAddrReg
      · subst hna
        refine ⟨r.missAddrReg, rfl, by simp, ?_⟩
        have := hdata hpf'
        rw [h.fetchLine hf] at this
        rw [this]
        exact hd
      · simp only [Function.update_of_ne hna] at hn ⊢
        exact h.main n hn
    all_goals
      intro hf'
      cases hf'

/-- While the line mirrors `m_data`, no valid line changes. -/
theorem Ok.mirror (h : r.Ok m) (hf : r.fetching = true) (d : Line 3) (b : Bool) :
    ({ r with
        mStartReg := b
        data := if r.fetchIsPf then r.data else Function.update r.data r.fetchLineReg d } :
      Dmc 3 l).Ok m := by
  refine ⟨?_, h.pf, h.invalid, h.fetchLine, h.fetchTag⟩
  intro n hn
  cases hpf : r.fetchIsPf
  · have hne : n ≠ r.fetchLineReg := by
      rintro rfl
      have := h.invalid hf hpf
      rw [this] at hn
      cases hn
    simp only [Bool.false_eq_true, if_false, Function.update_of_ne hne]
    exact h.main n hn
  · exact h.main n hn

theorem Ok.stepFetch (h : r.Ok m) (hf : r.fetching = true)
    (hdone : x.mDone = true → LineOf m r.missAddrReg x.mData) : (r.stepFetch x).Ok m := by
  have hmir := h.mirror hf x.mData false
  rw [Dmc.stepFetch]
  split
  case isTrue hd =>
    refine hmir.finish hf (hdone hd) ?_
    intro hpf
    have hpf' : r.fetchIsPf = false := hpf
    simp [hpf']
  case isFalse => exact hmir

/-- **Step lemma for the cache**: if `m_done` comes with the line of the miss address, the cache
invariant is kept. -/
theorem Ok.step (h : r.Ok m)
    (hdone : r.fetching = true → x.mDone = true → LineOf m r.missAddrReg x.mData) :
    (r.step x).Ok m := by
  have hmain : (r.stepMain x).Ok m := by
    rw [Dmc.stepMain]
    split
    case isTrue hf => exact h.stepFetch hf (hdone hf)
    case isFalse => exact h.stepIdle
  exact ⟨hmain.main, hmain.pf, hmain.invalid, hmain.fetchLine, hmain.fetchTag⟩

/-- **What a hit returns**, from any of its three sources. -/
theorem cpuData_eq (h : r.Ok m) (he : r.EarlyOk m) {en : Bool} {a : BitVec 32}
    (hhit : r.hit en a = true) : r.cpuData en a = flashWord m a := by
  rw [cpuData]
  apply WordOf.word
  split
  case isTrue hpf =>
    simp only [hitPf, Bool.and_eq_true, beq_iff_eq] at hpf
    obtain ⟨⟨⟨-, hv⟩, hl⟩, ht⟩ := hpf
    obtain ⟨b, hbl, hbt, hb⟩ := h.pf hv
    exact (hb.wordOf _).congr (hbl.trans hl.symm) (hbt.trans ht.symm)
  case isFalse hpf =>
    simp only [hit, Bool.or_eq_true, hpf, Bool.false_eq_true, or_false] at hhit
    rcases hhit with hfull | hcwf
    · simp only [hitFull, Bool.and_eq_true, beq_iff_eq] at hfull
      obtain ⟨ht, hv⟩ := hfull
      obtain ⟨b, hbl, hbt, hb⟩ := h.main _ hv
      exact (hb.wordOf _).congr hbl (hbt.trans ht)
    · simp only [hitCwf, Bool.and_eq_true, beq_iff_eq, Bool.not_eq_true'] at hcwf
      obtain ⟨⟨⟨⟨hf, hpf'⟩, hl⟩, ht⟩, hk⟩ := hcwf
      have hw := he hf hpf' _ hk
      rw [hl]
      exact hw.congr ((h.fetchLine hf).symm.trans hl.symm) ((h.fetchTag hf).symm.trans ht.symm)

end Dmc

/-! ## The cache over its flash -/

namespace Slave

variable {l : ℕ} {m : FlashMem} {T : TrstCycles} {s : Slave 3 l} {x : XipIn} {p : Phase}

/-- **The data invariant.** `word_done` bits left over from an earlier fetch are no rising edges
(`stale`). A demand fetch therefore starts without early-restart bits (`fresh`), and each one set
later stands for a word of this fetch (`early`, `landed`). -/
structure DataOk (m : FlashMem) (p : Phase) (s : Slave 3 l) : Prop where
  dmc : s.dmc.Ok m
  stale : s.ctrl.state = .idle → ∀ k, s.ctrl.wordDone k = true → s.dmc.mWordDoneD k = true
  fresh : p = .started ∨ p = .cmd → s.dmc.fetchIsPf = false → ∀ k, s.dmc.fwv k = false
  early : s.dmc.EarlyOk m
  landed : s.dmc.fetching = true → s.dmc.fetchIsPf = false →
    ∀ k, s.dmc.fwv k = true → s.ctrl.wordDone k = true

/-- In every state of a transaction some bytes have landed. -/
theorem Captured.exists_landed {a : BitVec 24} {r : FlashCtrl 3} (h : Captured m a r) :
    ∃ n, Landed m a r n := by
  rw [Captured] at h
  split at h
  · exact ⟨_, h⟩
  · exact ⟨_, h⟩
  · exact ⟨_, h.1⟩
  · exact ⟨_, h⟩

/-- A finished word is the flash word at its place. -/
theorem Landed.wordOf {a : BitVec 32} {r : FlashCtrl 3} {n : ℕ} (h : Landed m (lineAddr a) r n)
    {k : BitVec 3} (hk : r.wordDone k = true) : WordOf m a r.dataReg k := by
  intro j
  have hcat : (k ++ j : BitVec 5).toNat = k.toNat * 4 + j.toNat := by
    rw [BitVec.toNat_append, Nat.shiftLeft_eq, Nat.mul_comm,
      ← Nat.two_pow_add_eq_or_of_lt j.isLt, Nat.mul_comm]
  have hlt := (h.words k).mp hk
  have hj := j.isLt
  exact h.bytes (k ++ j) (by omega)

/-- A line that has landed whole is the flash line. -/
theorem Landed.lineOf {a : BitVec 32} {r : FlashCtrl 3} (h : Landed m (lineAddr a) r 32) :
    LineOf m a r.dataReg := by
  intro k
  exact h.bytes k k.isLt

/-- A word that has landed stays landed until the next `start`. -/
theorem wordDone_keep {r : FlashCtrl 3} {k : BitVec 3} (hk : r.wordDone k = true)
    (di : BitVec 4) : (r.step T false di).wordDone k = true := by
  simp only [FlashCtrl.step, FlashCtrl.stepData, Bool.false_eq_true, if_false]
  split
  · simp only [FlashCtrl.capture]
    split
    · simp only
      split
      · by_cases hkk : k = r.byteIdx.extractLsb' 2 3
        · rw [hkk, Function.update_self]
        · rw [Function.update_of_ne hkk]
          exact hk
      · exact hk
    · exact hk
  · exact hk

/-- After an edge, a word has an early-restart bit if it had one or has just landed. -/
theorem fwv_clock (hf : s.dmc.fetching = true) (k : BitVec 3) :
    (s.clock m T x).dmc.fwv k =
      (s.dmc.fwv k || (s.ctrl.wordDone k && !s.dmc.mWordDoneD k)) := by
  simp [clock, Dmc.step, hf, dmcIn]

/-- A demand fetch mirrors the line of the controller. -/
theorem data_clock (hf : s.dmc.fetching = true) (hpf : s.dmc.fetchIsPf = false) :
    (s.clock m T x).dmc.data s.dmc.fetchLineReg = s.ctrl.dataReg := by
  simp only [clock, Dmc.step, Dmc.stepMain, hf, Dmc.stepFetch, if_true, hpf,
    Bool.false_eq_true, if_false, dmcIn]
  split
  · simp [Dmc.finish]
  · simp

/-- A demand fetch begins without early-restart bits. -/
theorem fwv_clock_idle (hf : s.dmc.fetching = false)
    (hf' : (s.clock m T x).dmc.fetching = true)
    (hpf' : (s.clock m T x).dmc.fetchIsPf = false) (k : BitVec 3) :
    (s.clock m T x).dmc.fwv k = false := by
  simp only [clock, Dmc.step, Dmc.stepMain, hf, Bool.false_eq_true, if_false, Dmc.stepIdle,
    Bool.not_false, Bool.true_and] at hf' hpf' ⊢
  cases ha : s.dmc.amiss (s.dmcIn x)
  · cases hd : s.dmc.dmiss (s.dmcIn x)
    · cases hp : s.dmc.pfPending <;> simp [ha, hd, hp, hf, Dmc.prefetch] at hf' hpf'
    · simp
  · simp

/-- When the controller comes to rest, `m_word_done_d` has seen every `word_done` bit. -/
theorem stale_clock (hidle : (s.clock m T x).ctrl.state = .idle) (k : BitVec 3)
    (hk : (s.clock m T x).ctrl.wordDone k = true) :
    (s.clock m T x).dmc.mWordDoneD k = true := by
  change s.ctrl.wordDone k = true
  have hne : s.ctrl.state ≠ .data := by
    intro hs
    have hnext : s.ctrl.nextState T s.wrap.flashStartReg = .idle := hidle
    simp only [FlashCtrl.nextState, hs] at hnext
    split at hnext <;> cases hnext
  rw [clock] at hk
  cases hst : s.wrap.flashStartReg
  · have hkeep := FlashCtrl.stepData_idle (r := s.ctrl) (by simp [hne]) (s.flash.di m s.pins x.junk)
    simpa only [FlashCtrl.step, hst, hkeep] using hk
  · -- `start` has just cleared the bits
    simp [FlashCtrl.step, FlashCtrl.stepData, hst] at hk

/-- The cache invariant across an edge: the line is whole when `m_done` is up. -/
theorem DataOk.dmc_clock (h : DataOk m p s) (ht : Transfer m T p s) :
    (s.clock m T x).dmc.Ok m := by
  apply h.dmc.step
  intro _ hdone
  have hp : p = .done := by
    have hd : s.wrap.mDoneReg = true := hdone
    rw [ht.phase.mDone, decide_eq_true_iff] at hd
    exact hd
  subst hp
  have hcap := ht.captured (Or.inr (Or.inr rfl))
  have hidle : s.ctrl.state = .idle := ht.phase.ctrl
  rw [Captured, hidle] at hcap
  exact Landed.lineOf hcap

/-- Outside a fetch: a demand fetch that begins has no early-restart bits. -/
theorem DataOk.clock_idle (h : DataOk m .idle s) (ht : Transfer m T .idle s) {q : Phase}
    (hq : Transfer m T q (s.clock m T x)) : DataOk m q (s.clock m T x) := by
  have hf : s.dmc.fetching = false := by rw [ht.phase.fetching]; rfl
  refine ⟨h.dmc_clock ht, stale_clock, ?_, ?_, ?_⟩
  · intro hq' hpf k
    refine fwv_clock_idle hf ?_ hpf k
    rw [hq.phase.fetching, decide_eq_true_iff]
    rcases hq' with rfl | rfl <;> simp
  · intro hf' hpf k hk
    rw [fwv_clock_idle hf hf' hpf k] at hk
    cases hk
  · intro hf' hpf k hk
    rw [fwv_clock_idle hf hf' hpf k] at hk
    cases hk

/-- Up to `start` the `word_done` bits are stale, and none of them is taken. -/
theorem DataOk.clock_fresh (h : DataOk m p s) (ht : Transfer m T p s)
    (hp : p = .started ∨ p = .cmd) (q : Phase) : DataOk m q (s.clock m T x) := by
  have hf : s.dmc.fetching = true := by
    rw [ht.phase.fetching, decide_eq_true_iff]
    rcases hp with rfl | rfl <;> simp
  have hidle : s.ctrl.state = .idle := by
    rcases hp with rfl | rfl <;> exact ht.phase.ctrl
  have hnone : (s.clock m T x).dmc.fetchIsPf = false → ∀ k, (s.clock m T x).dmc.fwv k = false := by
    intro hpf k
    rw [(fetchLine_clock hf).2] at hpf
    rw [fwv_clock hf, h.fresh hp hpf k]
    cases hk : s.ctrl.wordDone k
    · rfl
    · rw [h.stale hidle k hk]
      rfl
  refine ⟨h.dmc_clock ht, stale_clock, fun _ => hnone, ?_, ?_⟩
  · intro _ hpf k hk
    rw [hnone hpf k] at hk
    cases hk
  · intro _ hpf k hk
    rw [hnone hpf k] at hk
    cases hk

/-- From `start` on, a bit that is taken is the bit of a word that has landed. -/
theorem DataOk.clock_captured (h : DataOk m p s) (ht : Transfer m T p s)
    (hp : p = .running ∨ p = .landed ∨ p = .done) {q : Phase} (hq : ¬ (q = .started ∨ q = .cmd)) :
    DataOk m q (s.clock m T x) := by
  have hf : s.dmc.fetching = true := by
    rw [ht.phase.fetching, decide_eq_true_iff]
    rcases hp with rfl | rfl | rfl <;> simp
  have hstart : s.wrap.flashStartReg = false := by
    rw [ht.phase.flashStart, decide_eq_false_iff_not]
    rcases hp with rfl | rfl | rfl <;> simp
  obtain ⟨n, hland⟩ := Captured.exists_landed (ht.captured hp)
  obtain ⟨hline, hispf⟩ := fetchLine_clock (m := m) (T := T) (x := x) hf
  have hdone : (s.clock m T x).dmc.fetchIsPf = false →
      ∀ k, (s.clock m T x).dmc.fwv k = true → s.ctrl.wordDone k = true := by
    intro hpf k hk
    rw [hispf] at hpf
    rw [fwv_clock hf, Bool.or_eq_true, Bool.and_eq_true] at hk
    rcases hk with hk | ⟨hk, -⟩
    · exact h.landed hf hpf k hk
    · exact hk
  refine ⟨h.dmc_clock ht, stale_clock, fun hq' => absurd hq' hq, ?_, ?_⟩
  · intro _ hpf k hk
    have hword := Landed.wordOf hland (hdone hpf k hk)
    rw [dmc_clock_missAddr hf, hline, data_clock hf (hispf ▸ hpf)]
    exact hword
  · intro _ hpf k hk
    have hkeep := wordDone_keep (T := T) (hdone hpf k hk) (s.flash.di m s.pins x.junk)
    rw [clock, hstart]
    exact hkeep

/-- **Step lemma for the slave**: transfer and data invariant are kept by every event. -/
theorem dataOk_step (h : ∃ p, Transfer m T p s ∧ DataOk m p s) (e : Event) :
    ∃ p, Transfer m T p (s.step m T e) ∧ DataOk m p (s.step m T e) := by
  obtain ⟨p, ht, hd⟩ := h
  cases e with
  | reset =>
    refine ⟨.idle, Transfer.reset s, hd.dmc.reset, ?_, ?_, ?_, ?_⟩
    · intro _ k hk
      cases hk
    · rintro (hp | hp) <;> cases hp
    · intro hf
      cases hf
    · intro hf
      cases hf
  | clock x =>
    cases p
    case idle =>
      have hq := ht.clock_idle (x := x)
      exact ⟨_, hq, hd.clock_idle ht hq⟩
    case started => exact ⟨_, ht.clock_started, hd.clock_fresh ht (Or.inl rfl) _⟩
    case cmd => exact ⟨_, ht.clock_cmd, hd.clock_fresh ht (Or.inr rfl) _⟩
    case running =>
      rcases ht.clock_running (x := x) with ⟨hq, -⟩ | ⟨hq, -⟩
      · exact ⟨_, hq, hd.clock_captured ht (Or.inl rfl) (by simp)⟩
      · exact ⟨_, hq, hd.clock_captured ht (Or.inl rfl) (by simp)⟩
    case landed =>
      exact ⟨_, ht.clock_landed, hd.clock_captured ht (Or.inr (Or.inl rfl)) (by simp)⟩
    case done =>
      exact ⟨_, ht.clock_done, hd.clock_captured ht (Or.inr (Or.inr rfl)) (by simp)⟩

/-- The invariants hold in every state of every run. -/
theorem exists_dataOk (e : ℕ → Event) (n : ℕ) :
    ∃ p, Transfer m T p (run m T l e n) ∧ DataOk m p (run m T l e n) := by
  refine trace_invariant (fun s => ∃ p, Transfer m T p s ∧ DataOk m p s) ?_
    (fun n h => dataOk_step h (e n)) n
  refine ⟨.idle, Transfer.powerOn, Dmc.ok_powerOn, ?_, ?_, ?_, ?_⟩
  · intro _ k hk
    cases hk
  · rintro (hp | hp) <;> cases hp
  · intro hf
    cases hf
  · intro hf
    cases hf

/-- A read data phase with `HREADYOUT` high has the flash word at its address on `HRDATA`. -/
def ReadDataOk (m : FlashMem) (s : Slave 3 l) (prefetchEn : Bool) : Prop :=
  s.wrap.dphaseActive = true → s.hreadyOut prefetchEn = true →
    s.hrdata prefetchEn = flashWord m s.wrap.dphaseAddr

/-- **What a read returns** in every state of every run, whatever the prefetch enable is. -/
theorem read_data (m : FlashMem) (T : TrstCycles) (l : ℕ) (e : ℕ → Event) (n : ℕ) (en : Bool) :
    ReadDataOk m (run m T l e n) en := by
  intro hact hready
  obtain ⟨p, -, hd⟩ := exists_dataOk (m := m) (T := T) (l := l) e n
  rw [hreadyOut, if_pos hact] at hready
  exact Dmc.cpuData_eq hd.dmc hd.early hready

end Slave

end KwsSoc.Xip
