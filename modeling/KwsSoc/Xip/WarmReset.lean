import KwsSoc.Xip.ReadData
import KwsSoc.Xip.Hints

/-! # A reset while the flash changes

What a warm reset leaves of the old contents. `VALID`, `TAG` and `DATA` have no reset, so that a
line that is valid at the reset is valid after it and hits without a fetch. `Emptied` is what the
cache owes after a reset, over whatever the flash holds from then on; `emptied_iff` says that it is
met exactly when no line of the main cache is valid at the reset. The prefetch buffer and a fetch
under way leave no trace: `Since` follows the lines that have been fetched since the reset. -/

namespace KwsSoc.Xip

open SyncMachine

/-! ## Lines fetched since some cycle -/

/-- Two addresses in one line. -/
def SameLine (w l : ℕ) (a b : BitVec 32) : Prop :=
  lineNo w l a = lineNo w l b ∧ tagOf w l a = tagOf w l b

namespace Dmc

variable {w l : ℕ} {r : Dmc w l} {x : DmcIn w} {F F' : BitVec 32 → Prop}

/-- **What the cache holds has been fetched**: the valid lines, the prefetch buffer and the line
under fetch are those of addresses in `F`. -/
structure Since (F : BitVec 32 → Prop) (r : Dmc w l) : Prop where
  main : ∀ n, r.valid n = true → ∃ a, F a ∧ lineNo w l a = n ∧ tagOf w l a = r.tag n
  pf : r.pfValid = true → ∃ a, F a ∧ lineNo w l a = r.pfLine ∧ tagOf w l a = r.pfTag
  fetch : r.fetching = true → F r.missAddrReg ∧ r.fetchLineReg = lineNo w l r.missAddrReg ∧
    r.fetchTagReg = tagOf w l r.missAddrReg

theorem Since.mono (h : Since F r) (hF : ∀ a, F a → F' a) : Since F' r where
  main n hn := by
    obtain ⟨a, ha, hrest⟩ := h.main n hn
    exact ⟨a, hF a ha, hrest⟩
  pf hv := by
    obtain ⟨a, ha, hrest⟩ := h.pf hv
    exact ⟨a, hF a ha, hrest⟩
  fetch hf := by
    obtain ⟨ha, hrest⟩ := h.fetch hf
    exact ⟨hF _ ha, hrest⟩

/-- A reset keeps the main cache and nothing else. -/
theorem Since.reset (h : Since F r) : Since F r.reset where
  main := h.main
  pf := by rintro ⟨⟩
  fetch := by rintro ⟨⟩

/-- A demand miss invalidates a line. -/
theorem Since.demand (h : Since F r) {a : BitVec 32} (ha : F a) : Since F (r.demand a) where
  main n hn := by
    by_cases hna : n = lineNo w l a
    · simp [Dmc.demand, hna] at hn
    · simp only [Dmc.demand, Function.update_of_ne hna] at hn
      exact h.main n hn
  pf := h.pf
  fetch _ := ⟨ha, rfl, rfl⟩

/-- A complete line is that of the miss address. -/
theorem Since.finish (h : Since F r) (ha : F r.missAddrReg) (d : Line w) :
    Since F (r.finish d) := by
  rw [Dmc.finish]
  split
  · refine ⟨h.main, fun _ => ⟨r.missAddrReg, ha, rfl, rfl⟩, ?_⟩
    rintro ⟨⟩
  · refine ⟨fun n hn => ?_, h.pf, ?_⟩
    · by_cases hna : n = lineNo w l r.missAddrReg
      · subst hna
        exact ⟨r.missAddrReg, ha, rfl, by simp⟩
      · simp only [Function.update_of_ne hna] at hn ⊢
        exact h.main n hn
    · rintro ⟨⟩

theorem Since.stepFetch (h : Since F r) (hf : r.fetching = true) : Since F (r.stepFetch x) := by
  have hmir : Since F ({ r with
      mStartReg := false
      data := if r.fetchIsPf then r.data else Function.update r.data r.fetchLineReg x.mData } :
      Dmc w l) := ⟨h.main, h.pf, h.fetch⟩
  rw [Dmc.stepFetch]
  split
  · exact hmir.finish (h.fetch hf).1 _
  · exact hmir

/-- **Step lemma**: what a new `m_start` is up for has to be in `F`. -/
theorem Since.step (h : Since F r)
    (hstart : (r.step x).mStartReg = true → F (r.step x).missAddrReg) : Since F (r.step x) := by
  have hmain : Since F (r.stepMain x) := by
    have hs : (r.stepMain x).mStartReg = true → F (r.stepMain x).missAddrReg := hstart
    rcases r.stepMain_cases x with ⟨hf, hm⟩ | ⟨-, -, a, hm⟩ | ⟨-, -, -, -, hm⟩ | ⟨-, -, hm⟩
    · rw [hm]
      exact h.stepFetch hf
    · rw [hm] at hs ⊢
      exact h.demand (hs rfl)
    · rw [hm] at hs ⊢
      exact ⟨h.main, h.pf, fun _ => ⟨hs rfl, rfl, rfl⟩⟩
    · rw [hm]
      exact h
  exact ⟨hmain.main, hmain.pf, hmain.fetch⟩

/-- A hit is on a line that has been fetched. -/
theorem Since.hit (h : Since F r) {en : Bool} {a : BitVec 32} (hit : r.hit en a = true) :
    ∃ b, F b ∧ SameLine w l b a := by
  simp only [Dmc.hit, Bool.or_eq_true] at hit
  rcases hit with (hfull | hcwf) | hpf
  · simp only [hitFull, Bool.and_eq_true, beq_iff_eq] at hfull
    obtain ⟨b, hb, hl, ht⟩ := h.main _ hfull.2
    exact ⟨b, hb, hl, ht.trans hfull.1⟩
  · simp only [hitCwf, Bool.and_eq_true, beq_iff_eq] at hcwf
    obtain ⟨⟨⟨⟨hf, -⟩, hl⟩, ht⟩, -⟩ := hcwf
    obtain ⟨hb, hbl, hbt⟩ := h.fetch hf
    exact ⟨_, hb, hbl.symm.trans hl.symm, hbt.symm.trans ht.symm⟩
  · simp only [hitPf, Bool.and_eq_true, beq_iff_eq] at hpf
    obtain ⟨⟨⟨-, hv⟩, hl⟩, ht⟩ := hpf
    obtain ⟨b, hb, hbl, hbt⟩ := h.pf hv
    exact ⟨b, hb, hbl.trans hl.symm, hbt.trans ht.symm⟩

/-- At `m_done` a demand fetch publishes its line. -/
theorem hitFull_step (hf : r.fetching = true) (hpf : r.fetchIsPf = false) (hd : x.mDone = true) :
    (r.step x).hitFull r.missAddrReg = true := by
  have hmain : (r.stepMain x).hitFull r.missAddrReg = true := by
    rw [stepMain, if_pos hf, Dmc.stepFetch]
    simp [hd, Dmc.finish, hpf, hitFull]
  exact hmain

/-- A reset leaves the lines of the main cache. -/
theorem hitFull_reset (r : Dmc w l) (a : BitVec 32) : r.reset.hitFull a = r.hitFull a := rfl

end Dmc

namespace Slave

variable {l : ℕ} {m : FlashMem} {T : TrstCycles} {s : Slave 3 l} {e : ℕ → Event} {n : ℕ}

/-! ## After a reset -/

/-- The slave in cycle `n` after a reset in state `s`, over a flash with contents `m`. -/
def afterReset (m : FlashMem) (T : TrstCycles) (s : Slave 3 l) (e : ℕ → Event) (n : ℕ) :
    Slave 3 l :=
  trace (step m T) s.reset e n

/-- Up to cycle `n` after the reset an `m_start` was up for address `a`. -/
def StartedBy (m : FlashMem) (T : TrstCycles) (s : Slave 3 l) (e : ℕ → Event) (n : ℕ)
    (a : BitVec 32) : Prop :=
  ∃ k ≤ n, (afterReset m T s e k).dmc.mStartReg = true ∧
    (afterReset m T s e k).dmc.missAddrReg = a

/-- **What a reset in state `s` owes**, whatever the flash holds afterwards: nothing is valid, a
line that hits has been fetched since, and reads return what the flash holds now. -/
structure Emptied (s : Slave 3 l) : Prop where
  main : ∀ k, s.reset.dmc.valid k = false
  victim : s.reset.dmc.pfValid = false
  fetched : ∀ m T e n en a, (afterReset m T s e n).dmc.hit en a = true →
    ∃ b, StartedBy m T s e n b ∧ SameLine 3 l b a
  served : ∀ m T e n en, ReadDataOk m (afterReset m T s e n) en

/-- **Run lemma**: the cache holds what has been fetched since the reset. -/
theorem since_afterReset (h : ∀ k, s.dmc.valid k = false) (m : FlashMem) (T : TrstCycles)
    (e : ℕ → Event) (n : ℕ) : (afterReset m T s e n).dmc.Since (StartedBy m T s e n) := by
  induction n with
  | zero =>
    refine ⟨fun k hk => ?_, ?_, ?_⟩
    · have hno : s.reset.dmc.valid k = false := h k
      rw [show afterReset m T s e 0 = s.reset from rfl, hno] at hk
      cases hk
    · rintro ⟨⟩
    · rintro ⟨⟩
  | succ n ih =>
    have hmono : ∀ a, StartedBy m T s e n a → StartedBy m T s e (n + 1) a := by
      rintro a ⟨k, hk, hrest⟩
      exact ⟨k, Nat.le_succ_of_le hk, hrest⟩
    have hnext : afterReset m T s e (n + 1) = (afterReset m T s e n).step m T (e n) := rfl
    have hnew : (afterReset m T s e (n + 1)).dmc.mStartReg = true →
        StartedBy m T s e (n + 1) (afterReset m T s e (n + 1)).dmc.missAddrReg :=
      fun hs => ⟨n + 1, Nat.le_refl _, hs, rfl⟩
    rw [hnext] at hnew ⊢
    cases he : e n with
    | reset => exact (ih.mono hmono).reset
    | clock x =>
      rw [he] at hnew
      exact (ih.mono hmono).step hnew

/-- **Run lemma**: reads return what the flash holds now. -/
theorem dataOk_afterReset (h : ∀ k, s.dmc.valid k = false) (m : FlashMem) (T : TrstCycles)
    (e : ℕ → Event) (n : ℕ) :
    ∃ p, Transfer m T p (afterReset m T s e n) ∧ DataOk m p (afterReset m T s e n) := by
  refine trace_invariant (fun s => ∃ p, Transfer m T p s ∧ DataOk m p s) ?_
    (fun n h => dataOk_step h (e n)) n
  have hok : s.reset.dmc.Ok m := by
    refine ⟨fun k hk => ?_, ?_, ?_, ?_, ?_⟩
    · have hno : s.reset.dmc.valid k = false := h k
      rw [hno] at hk
      cases hk
    all_goals rintro ⟨⟩
  refine ⟨.idle, Transfer.reset s, hok, ?_, ?_, ?_, ?_⟩
  · intro _ k hk
    cases hk
  · rintro (hp | hp) <;> cases hp
  · intro hf
    cases hf
  · intro hf
    cases hf

/-- **When a reset empties the cache.** -/
theorem emptied_iff (s : Slave 3 l) : s.Emptied ↔ ∀ k, s.dmc.valid k = false := by
  constructor
  · intro h
    exact h.main
  · intro h
    refine ⟨h, rfl, ?_, ?_⟩
    · intro m T e n en a hit
      exact (since_afterReset h m T e n).hit hit
    · intro m T e n en hact hready
      obtain ⟨p, -, hd⟩ := dataOk_afterReset h m T e n
      rw [hreadyOut, if_pos hact] at hready
      exact Dmc.cpuData_eq hd.dmc hd.early hready

/-- **A line that is valid at the reset** hits after it, with what the flash held before. -/
theorem stale_hit (h : s.dmc.Ok m) {k : BitVec l} (hk : s.dmc.valid k = true) :
    ∃ a, lineNo 3 l a = k ∧ ∀ en, s.reset.dmc.hit en a = true ∧
      s.reset.dmc.cpuData en a = flashWord m a := by
  obtain ⟨a, rfl, htag, hline⟩ := h.main k hk
  refine ⟨a, rfl, fun en => ?_⟩
  have hfull : s.reset.dmc.hitFull a = true := by
    rw [show s.reset.dmc = s.dmc.reset from rfl, Dmc.hitFull_reset, Dmc.hitFull, hk, htag]
    simp
  have hpf : s.reset.dmc.hitPf en a = false := by
    rw [Dmc.hitPf, show s.reset.dmc.pfValid = false from rfl, Bool.and_false]
    rfl
  refine ⟨by rw [Dmc.hit, hfull]; rfl, ?_⟩
  rw [Dmc.cpuData, hpf]
  exact (hline.wordOf _).word

/-- After the first read the line of address 0 is valid, and a reset does not change that. -/
theorem valid_after_reset :
    ∃ n, (trace (step (fun _ => 0) ⟨360, by decide, by decide⟩) (powerOn 3 8)
        (fun k => .clock (readOf 0 k)) n).reset.dmc.hit false 0 = true ∧
      ¬ (trace (step (fun _ => 0) ⟨360, by decide, by decide⟩) (powerOn 3 8)
        (fun k => .clock (readOf 0 k)) n).Emptied := by
  obtain ⟨n, s, hs, hdone, haddr, -, hf, hpf⟩ :=
    exists_first_fetch 3 8 (fun _ => 0) ⟨360, by decide, by decide⟩ 0
  refine ⟨n + 2, ?_⟩
  rw [trace_succ, hs]
  -- the edge at `m_done` publishes the line
  have hfull : (s.step (fun _ => 0) ⟨360, by decide, by decide⟩
      (.clock (readOf 0 (n + 1)))).dmc.hitFull 0 = true := by
    rw [← haddr]
    exact Dmc.hitFull_step hf hpf hdone
  generalize s.step (fun _ => 0) ⟨360, by decide, by decide⟩ (.clock (readOf 0 (n + 1))) = s'
    at hfull
  refine ⟨?_, fun h => ?_⟩
  · rw [show s'.reset.dmc = s'.dmc.reset from rfl, Dmc.hit, Dmc.hitFull_reset, hfull]
    rfl
  · have hno : s'.dmc.valid (lineNo 3 8 0) = false := h.main _
    rw [Dmc.hitFull, hno, Bool.and_false] at hfull
    cases hfull

end Slave

end KwsSoc.Xip
