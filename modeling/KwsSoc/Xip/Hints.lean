import Mathlib.Data.Nat.Count
import KwsSoc.Lib.SyncMachine
import KwsSoc.Xip.Cache

/-! # Prefetch hints

What becomes of the hints that `ro_dmc` takes at rising edges of `prefetch_en`. `hints_accounted`:
in every run from a reset, over any bus and any flash, each hint is dispatched, replaced by a later
one or still pending; a prefetch fetches the address of the last hint, waits for demand misses and
leaves the main cache alone. A hint stays pending when `prefetch_en` falls, so that the enable does
not gate the dispatch: `no_prefetch_disabled` needs that no hint is pending at a fall, and
`exists_prefetch_of_pending` that this is needed. -/

namespace KwsSoc.Xip

open SyncMachine

namespace Dmc

variable {w l : ℕ} {r : Dmc w l} {x : DmcIn w}

/-! ## One clock edge -/

/-- **What the main FSM can do**: fetch on, take a demand miss, dispatch the pending hint, or
nothing. -/
theorem stepMain_cases (r : Dmc w l) (x : DmcIn w) :
    (r.fetching = true ∧ r.stepMain x = r.stepFetch x) ∨
      (r.fetching = false ∧ (r.amiss x = true ∨ r.dmiss x = true) ∧
        ∃ a, r.stepMain x = r.demand a) ∨
      (r.fetching = false ∧ r.amiss x = false ∧ r.dmiss x = false ∧ r.pfPending = true ∧
        r.stepMain x = r.prefetch) ∨
      (r.fetching = false ∧ r.pfPending = false ∧ r.stepMain x = r) := by
  rw [stepMain, stepIdle]
  cases hf : r.fetching
  · rw [if_neg Bool.false_ne_true]
    cases ha : r.amiss x
    · rw [if_neg Bool.false_ne_true]
      cases hd : r.dmiss x
      · rw [if_neg Bool.false_ne_true]
        cases hp : r.pfPending
        · exact Or.inr (Or.inr (Or.inr ⟨rfl, rfl, rfl⟩))
        · exact Or.inr (Or.inr (Or.inl ⟨rfl, rfl, rfl, rfl, rfl⟩))
      · exact Or.inr (Or.inl ⟨rfl, Or.inr rfl, _, rfl⟩)
    · exact Or.inr (Or.inl ⟨rfl, Or.inl rfl, _, rfl⟩)
  · exact Or.inl ⟨rfl, rfl⟩

/-- The FSM leaves `ST_IDLE` through the prefetch branch. -/
def dispatches (r : Dmc w l) (x : DmcIn w) : Bool :=
  !r.fetching && (r.step x).fetching && (r.step x).fetchIsPf

/-- **When a hint is dispatched.** -/
theorem dispatches_iff : r.dispatches x = true ↔
    r.fetching = false ∧ r.amiss x = false ∧ r.dmiss x = false ∧ r.pfPending = true := by
  have hstep : (r.step x).fetching = (r.stepMain x).fetching ∧
      (r.step x).fetchIsPf = (r.stepMain x).fetchIsPf := ⟨rfl, rfl⟩
  rw [dispatches, hstep.1, hstep.2]
  rcases r.stepMain_cases x with ⟨hf, -⟩ | ⟨hf, hmiss, a, hm⟩ | ⟨hf, ha, hd, hp, hm⟩ | ⟨hf, hp, hm⟩
  · simp [hf]
  · rw [hm]
    rcases hmiss with h | h <;> simp [demand, h]
  · rw [hm]
    simp [prefetch, hf, ha, hd, hp]
  · rw [hm]
    simp [hf, hp]

/-- The two always-blocks agree: `pf_pending` is cleared when the hint is dispatched, unless a new
one comes. -/
theorem pfPending_step : (r.step x).pfPending =
    (r.freshHint x || (r.pfPending && !r.dispatches x)) := by
  have hd : r.dispatches x = (!r.fetching && r.pfPending && !r.amiss x && !r.dmiss x) := by
    rw [Bool.eq_iff_iff, dispatches_iff]
    simp only [Bool.and_eq_true, Bool.not_eq_true']
    tauto
  rw [hd, step]
  cases r.freshHint x
  · cases r.fetching <;> cases r.pfPending <;> cases r.amiss x <;> cases r.dmiss x <;> rfl
  · rfl

/-! ## A prefetch on its way -/

/-- **While a prefetch is under way** that was dispatched in state `r₀`: the main cache and the
prefetch buffer are as they were. -/
structure Prefetching (r₀ r : Dmc w l) (a : BitVec 32) : Prop where
  fetching : r.fetching = true
  isPf : r.fetchIsPf = true
  missAddr : r.missAddrReg = a
  data : r.data = r₀.data
  tag : r.tag = r₀.tag
  valid : r.valid = r₀.valid
  buffer : r.pfData = r₀.pfData ∧ r.pfTag = r₀.pfTag ∧ r.pfLine = r₀.pfLine ∧
    r.pfValid = r₀.pfValid

/-- **At its `m_done`**: the buffer holds the line `d` of address `a` now, and the main cache is as
it was. -/
structure Prefetched (r₀ r : Dmc w l) (a : BitVec 32) (d : Line w) : Prop where
  fetching : r.fetching = false
  data : r.data = r₀.data
  tag : r.tag = r₀.tag
  valid : r.valid = r₀.valid
  buffer : r.pfData = d ∧ r.pfTag = tagOf w l a ∧ r.pfLine = lineNo w l a ∧ r.pfValid = true

/-- A dispatched prefetch is for the captured address. -/
theorem prefetching_of_dispatches (h : r.dispatches x = true) :
    Prefetching r (r.step x) r.pfAddrCapture := by
  obtain ⟨hf, ha, hd, hp⟩ := dispatches_iff.mp h
  have hm : r.stepMain x = r.prefetch := by
    rw [stepMain, stepIdle, hf, ha, hd, hp]
    rfl
  have hstep : Prefetching r (r.stepMain x) r.pfAddrCapture := by
    rw [hm]
    exact ⟨rfl, rfl, rfl, rfl, rfl, rfl, rfl, rfl, rfl, rfl⟩
  exact ⟨hstep.fetching, hstep.isPf, hstep.missAddr, hstep.data, hstep.tag, hstep.valid,
    hstep.buffer⟩

variable {r₀ : Dmc w l} {a : BitVec 32}

/-- An edge of a prefetch before its `m_done`. -/
theorem Prefetching.step (h : Prefetching r₀ r a) (hd : x.mDone = false) :
    Prefetching r₀ (r.step x) a := by
  obtain ⟨hf, hpf, ha, hdata, htag, hvalid, hbuf⟩ := h
  have hstep : Prefetching r₀ (r.stepMain x) a := by
    rw [stepMain, if_pos hf, stepFetch]
    simp only [hd, hpf, Bool.false_eq_true, if_false, if_true]
    exact ⟨hf, rfl, ha, hdata, htag, hvalid, hbuf⟩
  exact ⟨hstep.fetching, hstep.isPf, hstep.missAddr, hstep.data, hstep.tag, hstep.valid,
    hstep.buffer⟩

/-- The edge at its `m_done`. -/
theorem Prefetching.finish (h : Prefetching r₀ r a) (hd : x.mDone = true) :
    Prefetched r₀ (r.step x) a x.mData := by
  obtain ⟨hf, hpf, rfl, hdata, htag, hvalid, -⟩ := h
  have hstep : Prefetched r₀ (r.stepMain x) r.missAddrReg x.mData := by
    rw [stepMain, if_pos hf, stepFetch]
    simp only [hd, hpf, if_true, Dmc.finish]
    exact ⟨rfl, hdata, htag, hvalid, rfl, rfl, rfl, rfl⟩
  exact ⟨hstep.fetching, hstep.data, hstep.tag, hstep.valid, hstep.buffer⟩

/-! ## Runs from a reset -/

/-- The cache in cycle `n` after a reset that found it in state `r`. -/
def run (r : Dmc w l) (i : ℕ → DmcIn w) (n : ℕ) : Dmc w l := trace step r.reset i n

/-- `prefetch_en` in the cycle before, low at the reset. -/
def enBefore (i : ℕ → DmcIn w) : ℕ → Bool
  | 0 => false
  | n + 1 => (i n).prefetchEn

/-- **A hint**: a rising edge of `prefetch_en` with a length that is not zero. -/
def hint (i : ℕ → DmcIn w) (n : ℕ) : Bool :=
  (i n).prefetchEn && !enBefore i n && (i n).prefetchLen != 0#32

/-- A prefetch is dispatched in cycle `n`. -/
def dispatched (r : Dmc w l) (i : ℕ → DmcIn w) (n : ℕ) : Bool := (run r i n).dispatches (i n)

/-- A hint comes in cycle `n` while another one is pending that is not just dispatched. -/
def replaced (r : Dmc w l) (i : ℕ → DmcIn w) (n : ℕ) : Bool :=
  hint i n && (run r i n).pfPending && !dispatched r i n

variable {i : ℕ → DmcIn w} {n : ℕ}

theorem run_succ (r : Dmc w l) (i : ℕ → DmcIn w) (n : ℕ) :
    run r i (n + 1) = (run r i n).step (i n) := rfl

/-- The edge detector sees the hints. -/
theorem freshHint_run (r : Dmc w l) (i : ℕ → DmcIn w) (n : ℕ) :
    (run r i n).freshHint (i n) = hint i n := by
  have hen : (run r i n).prefetchEnD = enBefore i n := by cases n <;> rfl
  rw [freshHint, hen, hint]

/-- **No hint is lost or duplicated.** -/
theorem hints_conserved (r : Dmc w l) (i : ℕ → DmcIn w) (n : ℕ) :
    Nat.count (fun k => hint i k = true) n =
      Nat.count (fun k => dispatched r i k = true) n + Nat.count (fun k => replaced r i k = true) n +
        if (run r i n).pfPending then 1 else 0 := by
  induction n with
  | zero => rfl
  | succ n ih =>
    have hnext : (run r i (n + 1)).pfPending =
        (hint i n || ((run r i n).pfPending && !dispatched r i n)) := by
      rw [run_succ, pfPending_step, freshHint_run, dispatched]
    have hpend : dispatched r i n = true → (run r i n).pfPending = true := fun h =>
      (dispatches_iff.mp h).2.2.2
    rw [Nat.count_succ, Nat.count_succ, Nat.count_succ, hnext, ih, replaced]
    cases hint i n <;> cases hp : (run r i n).pfPending <;> cases hd : dispatched r i n <;>
      simp_all <;> omega

/-- A pending hint is the last one that came. -/
theorem pfAddrCapture_run (h : (run r i n).pfPending = true) :
    ∃ k < n, hint i k = true ∧ (∀ j, k < j → j < n → hint i j = false) ∧
      (run r i n).pfAddrCapture = (i k).prefetchBase := by
  induction n with
  | zero => cases h
  | succ n ih =>
    have haddr : (run r i (n + 1)).pfAddrCapture =
        if hint i n then (i n).prefetchBase else (run r i n).pfAddrCapture := by
      rw [← freshHint_run r i n]
      rfl
    rw [run_succ, pfPending_step, freshHint_run, Bool.or_eq_true, Bool.and_eq_true] at h
    rw [haddr]
    cases hn : hint i n
    · rw [hn] at h
      have hp : (run r i n).pfPending = true := by simpa using h.resolve_left Bool.false_ne_true |>.1
      obtain ⟨k, hk, hhint, hlast, hcap⟩ := ih hp
      refine ⟨k, Nat.lt_succ_of_lt hk, hhint, fun j hkj hj => ?_, hcap⟩
      rcases Nat.lt_succ_iff_lt_or_eq.mp hj with h | rfl
      · exact hlast j hkj h
      · exact hn
    · exact ⟨n, Nat.lt_succ_self n, hn, fun j hkj hj => absurd hj (by omega), rfl⟩

/-- **Run lemma for a prefetch**: until `m_done` it is under way. -/
theorem prefetching_run (h : dispatched r i n = true) {m : ℕ} (hm : n < m)
    (hquiet : ∀ j, n < j → j < m → (i j).mDone = false) :
    Prefetching (run r i n) (run r i m) (run r i n).pfAddrCapture := by
  induction m, hm using Nat.le_induction with
  | base => exact prefetching_of_dispatches h
  | succ m hm ih =>
    have hprev := ih fun j hj hjm => hquiet j hj (by omega)
    exact hprev.step (hquiet m hm (Nat.lt_succ_self m))

/-- What the cache owes to the hints of a run. -/
structure HintContract (r : Dmc w l) (i : ℕ → DmcIn w) : Prop where
  /-- Each hint so far has been dispatched, has been replaced, or is pending. -/
  accounted : ∀ n, Nat.count (fun k => hint i k = true) n =
    Nat.count (fun k => dispatched r i k = true) n + Nat.count (fun k => replaced r i k = true) n +
      if (run r i n).pfPending then 1 else 0
  /-- A prefetch is for the base address of the last hint before its dispatch. -/
  base : ∀ n, dispatched r i n = true → ∃ k < n, hint i k = true ∧
    (∀ j, k < j → j < n → hint i j = false) ∧
    (run r i (n + 1)).mStartReg = true ∧ (run r i (n + 1)).missAddrReg = (i k).prefetchBase
  /-- No demand miss is waiting when it is dispatched. -/
  yields : ∀ n, dispatched r i n = true →
    (run r i n).amiss (i n) = false ∧ (run r i n).dmiss (i n) = false
  /-- Up to its `m_done` it changes nothing. -/
  clean : ∀ n m, dispatched r i n = true → n < m → (∀ j, n < j → j < m → (i j).mDone = false) →
    Prefetching (run r i n) (run r i m) (run r i (n + 1)).missAddrReg
  /-- At its `m_done` the buffer is replaced as a whole. -/
  commits : ∀ n m, dispatched r i n = true → n < m → (∀ j, n < j → j < m → (i j).mDone = false) →
    (i m).mDone = true →
      Prefetched (run r i n) (run r i (m + 1)) (run r i (n + 1)).missAddrReg (i m).mData

/-- **Hints are accounted for** in every run from a reset. -/
theorem hints_accounted (r : Dmc w l) (i : ℕ → DmcIn w) : HintContract r i := by
  have haddr : ∀ n, dispatched r i n = true →
      (run r i (n + 1)).missAddrReg = (run r i n).pfAddrCapture := fun n h =>
    (prefetching_of_dispatches h).missAddr
  refine ⟨hints_conserved r i, ?_, ?_, ?_, ?_⟩
  · intro n h
    obtain ⟨hf, ha, hd, hp⟩ := dispatches_iff.mp h
    obtain ⟨k, hk, hhint, hlast, hcap⟩ := pfAddrCapture_run hp
    refine ⟨k, hk, hhint, hlast, ?_, (haddr n h).trans hcap⟩
    have hm : (run r i n).stepMain (i n) = (run r i n).prefetch := by
      rw [stepMain, stepIdle, hf, ha, hd, hp]
      rfl
    change ((run r i n).stepMain (i n)).mStartReg = true
    rw [hm]
    rfl
  · intro n h
    obtain ⟨-, ha, hd, -⟩ := dispatches_iff.mp h
    exact ⟨ha, hd⟩
  · intro n m h hnm hquiet
    rw [haddr n h]
    exact prefetching_run h hnm hquiet
  · intro n m h hnm hquiet hdone
    rw [haddr n h]
    exact (prefetching_run h hnm hquiet).finish hdone

/-! ## With the enable low -/

/-- `prefetch_en` falls in cycle `n`. -/
def falls (i : ℕ → DmcIn w) (n : ℕ) : Prop := enBefore i n = true ∧ (i n).prefetchEn = false

/-- A hint that is not pending when `prefetch_en` falls does not come up while it is low. -/
theorem pfPending_low (h : ∀ k, falls i k → (run r i k).pfPending = false)
    (hn : enBefore i n = false) : (run r i n).pfPending = false := by
  induction n with
  | zero => rfl
  | succ n ih =>
    have hlow : (i n).prefetchEn = false := hn
    have hprev : (run r i n).pfPending = false := by
      cases he : enBefore i n with
      | true => exact h n ⟨he, hlow⟩
      | false => exact ih he
    rw [run_succ, pfPending_step, freshHint_run, hint, hlow, hprev]
    rfl

/-- **No prefetch while it is disabled**, in a run in which no hint is pending at a fall of
`prefetch_en`. -/
theorem no_prefetch_disabled (r : Dmc w l) (i : ℕ → DmcIn w)
    (h : ∀ n, falls i n → (run r i n).pfPending = false) (n : ℕ)
    (hn : (i n).prefetchEn = false) : dispatched r i n = false := by
  have hpend : (run r i n).pfPending = false := by
    cases he : enBefore i n with
    | true => exact h n ⟨he, hn⟩
    | false => exact pfPending_low h he
  rw [dispatched, Bool.eq_false_iff, ne_eq, dispatches_iff, hpend]
  rintro ⟨-, -, -, ⟨⟩⟩

/-- No bus, no hint, and `m_done` at once. -/
def quietIn (w : ℕ) : DmcIn w where
  cpuRd := false
  cpuAaddr := 0
  cpuDaddr := 0
  cpuDvalid := false
  mData _ := 0
  mWordDone _ := false
  mDone := true
  prefetchEn := false
  prefetchBase := 0
  prefetchLen := 0

/-- An idle cache on a quiet bus dispatches what is pending. -/
theorem dispatches_quiet (hf : r.fetching = false) (hp : r.pfPending = true) :
    r.dispatches (quietIn w) = true :=
  dispatches_iff.mpr ⟨hf, rfl, rfl, hp⟩

/-- **A hint that is pending** when `prefetch_en` falls can be dispatched with the enable low ever
since. -/
theorem exists_prefetch_of_pending (hp : (run r i n).pfPending = true) :
    ∃ j, (∀ k < n, j k = i k) ∧ (∀ k, n ≤ k → (j k).prefetchEn = false) ∧
      ∃ m, n ≤ m ∧ dispatched r j m = true := by
  let j : ℕ → DmcIn w := fun k => if k < n then i k else quietIn w
  have hbefore : ∀ k < n, j k = i k := fun k hk => if_pos hk
  have hafter : ∀ k, n ≤ k → j k = quietIn w := fun k hk => if_neg (Nat.not_lt.mpr hk)
  have hrun : run r j n = run r i n := trace_congr hbefore
  refine ⟨j, hbefore, fun k hk => by rw [hafter k hk]; rfl, ?_⟩
  cases hf : (run r i n).fetching with
  | false =>
    refine ⟨n, Nat.le_refl n, ?_⟩
    rw [dispatched, hrun, hafter n (Nat.le_refl n)]
    exact dispatches_quiet hf hp
  | true =>
    -- the fetch under way ends first, and the hint stays pending
    refine ⟨n + 1, Nat.le_succ n, ?_⟩
    rw [dispatched, run_succ, hrun, hafter n (Nat.le_refl n), hafter (n + 1) (Nat.le_succ n)]
    apply dispatches_quiet
    · change ((run r i n).stepMain (quietIn w)).fetching = false
      rw [stepMain, if_pos hf, stepFetch]
      simp only [quietIn, if_true, finish]
      split <;> rfl
    · have hno : (run r i n).dispatches (quietIn w) = false := by
        rw [dispatches, hf]
        rfl
      rw [pfPending_step, hp, hno, Bool.not_false, Bool.and_true, Bool.or_true]

/-- A hint is given together with a read that misses; two cycles later `prefetch_en` is low, the
fetch is over and the bus is quiet. -/
def staleHint (n : ℕ) : DmcIn 3 :=
  if n = 0 then
    { quietIn 3 with
      cpuRd := true, mDone := false, prefetchEn := true, prefetchBase := 64, prefetchLen := 32 }
  else quietIn 3

/-- The enable has been low for a cycle already when the hint is dispatched. -/
theorem prefetch_while_disabled :
    (staleHint 1).prefetchEn = false ∧ (staleHint 2).prefetchEn = false ∧
      dispatched (powerOn 3 8) staleHint 2 = true := by
  decide +kernel

/-- A hint that is dispatched before `prefetch_en` falls. -/
def servedHint (n : ℕ) : DmcIn 3 :=
  if n < 5 then
    { quietIn 3 with mDone := false, prefetchEn := true, prefetchBase := 64, prefetchLen := 32 }
  else quietIn 3

theorem no_prefetch_disabled_servedHint :
    dispatched (powerOn 3 8) servedHint 1 = true ∧
      dispatched (powerOn 3 8) servedHint 9 = false := by
  refine ⟨by decide +kernel, no_prefetch_disabled _ _ ?_ 9 rfl⟩
  rintro n ⟨hbefore, hlow⟩
  have h5 : n = 5 := by
    cases n with
    | zero => cases hbefore
    | succ n =>
      have hn : n < 5 := by
        by_contra hge
        rw [enBefore, servedHint, if_neg hge] at hbefore
        cases hbefore
      have hn' : ¬ n + 1 < 5 := by
        intro hlt
        rw [servedHint, if_pos hlt] at hlow
        cases hlow
      omega
  subst h5
  decide +kernel

end Dmc

end KwsSoc.Xip
