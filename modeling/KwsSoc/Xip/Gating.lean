import KwsSoc.Lib.SyncMachine
import KwsSoc.Xip.Cache

/-! # The cache without prefetch

`Plain` is `ro_dmc` with all prefetch state and logic taken out: a hit is in the main cache or an
early restart, and the FSM has the two branches for demand misses. With `prefetch_en` low since the
reset at power-up, the cache cannot be told from it: `prefetch_gated` has equal outputs in every
cycle, for any bus, flash and reset, and whatever the hint registers hold. -/

namespace KwsSoc.Xip

open SyncMachine

/-! ## The plain cache -/

/-- Registers of the cache without prefetch. -/
structure Plain (w l : ℕ) where
  data : BitVec l → Line w
  tag : BitVec l → BitVec (tagWidth w l)
  valid : BitVec l → Bool
  fetching : Bool
  missAddrReg : BitVec 32
  mStartReg : Bool
  fetchLineReg : BitVec l
  fetchTagReg : BitVec (tagWidth w l)
  mWordDoneD : BitVec w → Bool
  fwv : BitVec w → Bool

namespace Plain

variable {w l : ℕ}

/-- Power-on, as that of `ro_dmc`. -/
def powerOn (w l : ℕ) : Plain w l where
  data _ _ := 0
  tag _ := 0
  valid _ := false
  fetching := false
  missAddrReg := 0
  mStartReg := false
  fetchLineReg := 0
  fetchTagReg := 0
  mWordDoneD _ := false
  fwv _ := false

/-- Reset, as that of `ro_dmc`. -/
def reset (p : Plain w l) : Plain w l :=
  { p with
    fetching := false, missAddrReg := 0, mStartReg := false, mWordDoneD := fun _ => false
    fwv := fun _ => false }

/-- A full line or an early restart. -/
def hit (p : Plain w l) (a : BitVec 32) : Bool :=
  ((p.tag (lineNo w l a) == tagOf w l a) && p.valid (lineNo w l a)) ||
    (p.fetching && (lineNo w l a == p.fetchLineReg) && (tagOf w l a == p.fetchTagReg) &&
      p.fwv (wordNo w a))

/-- `cpu_data`. -/
def cpuData (p : Plain w l) (daddr : BitVec 32) : BitVec 32 :=
  (p.data (lineNo w l daddr)).word (wordNo w daddr)

/-- A fresh address phase that misses. -/
def amiss (p : Plain w l) (x : DmcIn w) : Bool := x.cpuRd && !p.hit x.cpuAaddr

/-- A held data phase that misses. -/
def dmiss (p : Plain w l) (x : DmcIn w) : Bool := x.cpuDvalid && !p.hit x.cpuDaddr

/-- Entry into `ST_FETCH` for a miss at address `a`. -/
def demand (p : Plain w l) (a : BitVec 32) : Plain w l :=
  { p with
    fetching := true, missAddrReg := a
    valid := Function.update p.valid (lineNo w l a) false
    fetchLineReg := lineNo w l a, fetchTagReg := tagOf w l a, mStartReg := true }

/-- The FSM in `ST_IDLE`. -/
def stepIdle (p : Plain w l) (x : DmcIn w) : Plain w l :=
  if p.amiss x then p.demand x.cpuAaddr
  else if p.dmiss x then p.demand x.cpuDaddr
  else p

/-- The FSM in `ST_FETCH`. -/
def stepFetch (p : Plain w l) (x : DmcIn w) : Plain w l :=
  let p' := { p with
    mStartReg := false, data := Function.update p.data p.fetchLineReg x.mData }
  if x.mDone then
    { p' with
      fetching := false
      tag := Function.update p.tag (lineNo w l p.missAddrReg) (tagOf w l p.missAddrReg)
      valid := Function.update p.valid (lineNo w l p.missAddrReg) true }
  else p'

/-- One clock edge. -/
def step (p : Plain w l) (x : DmcIn w) : Plain w l :=
  { (if p.fetching then p.stepFetch x else p.stepIdle x) with
    mWordDoneD := x.mWordDone
    fwv :=
      if !p.fetching && (p.amiss x || p.dmiss x) then fun _ => false
      else if p.fetching then fun k => p.fwv k || (x.mWordDone k && !p.mWordDoneD k)
      else p.fwv }

end Plain

/-! ## Cycles with reset -/

/-- Inputs of a cycle; `rst_n` is asynchronous and held for the cycle. -/
structure Cycle (w : ℕ) where
  rstN : Bool
  dmcIn : DmcIn w

/-- Outputs of a cycle. -/
structure DmcOut where
  cpuAhit : Bool
  cpuDhit : Bool
  mStart : Bool
  cpuData : BitVec 32
  mAddr : BitVec 32

variable {w l : ℕ}

/-- The registers during a cycle. -/
def Dmc.seen (r : Dmc w l) (x : Cycle w) : Dmc w l := if x.rstN then r else r.reset

/-- The registers after a cycle. -/
def Dmc.cycle (r : Dmc w l) (x : Cycle w) : Dmc w l := if x.rstN then r.step x.dmcIn else r.reset

/-- The outputs of `ro_dmc` in a cycle. -/
def Dmc.out (r : Dmc w l) (x : Cycle w) : DmcOut where
  cpuAhit := (r.seen x).hit x.dmcIn.prefetchEn x.dmcIn.cpuAaddr
  cpuDhit := (r.seen x).hit x.dmcIn.prefetchEn x.dmcIn.cpuDaddr
  mStart := (r.seen x).mStartReg
  cpuData := (r.seen x).cpuData x.dmcIn.prefetchEn x.dmcIn.cpuDaddr
  mAddr := (r.seen x).missAddrReg

/-- The registers during a cycle. -/
def Plain.seen (p : Plain w l) (x : Cycle w) : Plain w l := if x.rstN then p else p.reset

/-- The registers after a cycle. -/
def Plain.cycle (p : Plain w l) (x : Cycle w) : Plain w l :=
  if x.rstN then p.step x.dmcIn else p.reset

/-- The outputs of the plain cache in a cycle. -/
def Plain.out (p : Plain w l) (x : Cycle w) : DmcOut where
  cpuAhit := (p.seen x).hit x.dmcIn.cpuAaddr
  cpuDhit := (p.seen x).hit x.dmcIn.cpuDaddr
  mStart := (p.seen x).mStartReg
  cpuData := (p.seen x).cpuData x.dmcIn.cpuDaddr
  mAddr := (p.seen x).missAddrReg

/-! ## The simulation -/

/-- Both caches hold the same lines. -/
structure SameLines (r : Dmc w l) (p : Plain w l) : Prop where
  data : r.data = p.data
  tag : r.tag = p.tag
  valid : r.valid = p.valid

/-- **The simulation**: no prefetch is pending or under way, and the rest is equal. The line and tag
under fetch have no reset value and count only during a fetch. -/
structure Sim (r : Dmc w l) (p : Plain w l) : Prop extends SameLines r p where
  fetching : r.fetching = p.fetching
  missAddr : r.missAddrReg = p.missAddrReg
  mStart : r.mStartReg = p.mStartReg
  fetchLine : r.fetching = true → r.fetchLineReg = p.fetchLineReg
  fetchTag : r.fetching = true → r.fetchTagReg = p.fetchTagReg
  mWordDone : r.mWordDoneD = p.mWordDoneD
  fwv : r.fwv = p.fwv
  pfPending : r.pfPending = false
  fetchIsPf : r.fetchIsPf = false

variable {r : Dmc w l} {p : Plain w l}

/-- Reset forgets the rest. -/
theorem SameLines.reset (h : SameLines r p) : Sim r.reset p.reset where
  toSameLines := ⟨h.data, h.tag, h.valid⟩
  fetching := rfl
  missAddr := rfl
  mStart := rfl
  fetchLine := by rintro ⟨⟩
  fetchTag := by rintro ⟨⟩
  mWordDone := rfl
  fwv := rfl
  pfPending := rfl
  fetchIsPf := rfl

/-- A hit is a hit. -/
theorem Sim.hit (h : Sim r p) (a : BitVec 32) : r.hit false a = p.hit a := by
  have hpf : r.hitPf false a = false := rfl
  have hcwf : r.hitCwf a = (p.fetching && (lineNo w l a == p.fetchLineReg) &&
      (tagOf w l a == p.fetchTagReg) && p.fwv (wordNo w a)) := by
    cases hf : r.fetching
    · rw [Dmc.hitCwf, ← h.fetching, hf]
      rfl
    · rw [Dmc.hitCwf, h.fetchIsPf, h.fetchLine hf, h.fetchTag hf, h.fwv, h.fetching, Bool.not_false,
        Bool.and_true]
  rw [Dmc.hit, hpf, hcwf, Dmc.hitFull, h.tag, h.valid, Bool.or_false]
  rfl

theorem Sim.cpuData (h : Sim r p) (a : BitVec 32) : r.cpuData false a = p.cpuData a := by
  have hpf : r.hitPf false a = false := rfl
  rw [Dmc.cpuData, hpf, h.data]
  rfl

theorem Sim.miss (h : Sim r p) {x : DmcIn w} (hx : x.prefetchEn = false) :
    r.amiss x = p.amiss x ∧ r.dmiss x = p.dmiss x := by
  unfold Dmc.amiss Dmc.dmiss
  rw [hx, h.hit, h.hit]
  exact ⟨rfl, rfl⟩

/-- A demand miss. -/
theorem Sim.demand (h : Sim r p) (a : BitVec 32) : Sim (r.demand a) (p.demand a) where
  toSameLines := ⟨h.data, h.tag, by rw [Dmc.demand, Plain.demand, h.valid]⟩
  fetching := rfl
  missAddr := rfl
  mStart := rfl
  fetchLine _ := rfl
  fetchTag _ := rfl
  mWordDone := h.mWordDone
  fwv := h.fwv
  pfPending := h.pfPending
  fetchIsPf := rfl

theorem Sim.stepIdle (h : Sim r p) {x : DmcIn w} (hx : x.prefetchEn = false) :
    Sim (r.stepIdle x) (p.stepIdle x) := by
  obtain ⟨ha, hd⟩ := h.miss hx
  unfold Dmc.stepIdle Plain.stepIdle
  rw [ha, hd, h.pfPending]
  split
  · exact h.demand x.cpuAaddr
  · split
    · exact h.demand x.cpuDaddr
    · exact h

theorem Sim.stepFetch (h : Sim r p) (hf : r.fetching = true) (x : DmcIn w) :
    Sim (r.stepFetch x) (p.stepFetch x) := by
  have hdata : Function.update r.data r.fetchLineReg x.mData =
      Function.update p.data p.fetchLineReg x.mData := by
    rw [h.data, h.fetchLine hf]
  unfold Dmc.stepFetch Plain.stepFetch Dmc.finish
  simp only [h.fetchIsPf, Bool.false_eq_true, if_false]
  split
  · -- the line is published
    refine ⟨⟨hdata, ?_, ?_⟩, rfl, h.missAddr, rfl, ?_, ?_, h.mWordDone, h.fwv, h.pfPending, rfl⟩
    · simp only [h.tag, h.missAddr]
    · simp only [h.valid, h.missAddr]
    · rintro ⟨⟩
    · rintro ⟨⟩
  · exact ⟨⟨hdata, h.tag, h.valid⟩, h.fetching, h.missAddr, rfl, h.fetchLine, h.fetchTag,
      h.mWordDone, h.fwv, h.pfPending, rfl⟩

theorem Sim.step (h : Sim r p) {x : DmcIn w} (hx : x.prefetchEn = false) :
    Sim (r.step x) (p.step x) := by
  obtain ⟨ha, hd⟩ := h.miss hx
  have hhint : r.freshHint x = false := by
    rw [Dmc.freshHint, hx]
    rfl
  have hmain : Sim (r.stepMain x) (if p.fetching then p.stepFetch x else p.stepIdle x) := by
    unfold Dmc.stepMain
    rw [← h.fetching]
    cases hf : r.fetching
    · exact h.stepIdle hx
    · exact h.stepFetch hf x
  refine ⟨⟨hmain.data, hmain.tag, hmain.valid⟩, hmain.fetching, hmain.missAddr, hmain.mStart,
    hmain.fetchLine,
    hmain.fetchTag, rfl, ?_, ?_, hmain.fetchIsPf⟩
  · unfold Dmc.step Plain.step
    simp only [ha, hd, h.fetching, h.fwv, h.mWordDone]
  · unfold Dmc.step
    simp only [hhint, h.pfPending, Bool.false_eq_true, if_false, Bool.and_false, Bool.false_and]

theorem Sim.cycle (h : Sim r p) {x : Cycle w} (hx : x.dmcIn.prefetchEn = false) :
    Sim (r.cycle x) (p.cycle x) := by
  unfold Dmc.cycle Plain.cycle
  split
  · exact h.step hx
  · exact h.toSameLines.reset

/-- Related caches look alike. -/
theorem Sim.out (h : Sim r p) {x : Cycle w} (hx : x.dmcIn.prefetchEn = false) :
    r.out x = p.out x := by
  have hseen : Sim (r.seen x) (p.seen x) := by
    unfold Dmc.seen Plain.seen
    split
    · exact h
    · exact h.toSameLines.reset
  unfold Dmc.out Plain.out
  rw [hx, hseen.hit, hseen.hit, hseen.cpuData, hseen.mStart, hseen.missAddr]

/-- **Prefetch is gated**: with `prefetch_en` low in every cycle since the reset at power-up, the
outputs are those of the plain cache in every cycle, whatever else the inputs are and whatever the
registers held before the reset. -/
theorem prefetch_gated (w l : ℕ) (r : Dmc w l) (p : Plain w l) (hlines : SameLines r p)
    (x : ℕ → Cycle w) (hreset : (x 0).rstN = false)
    (hen : ∀ n, (x n).dmcIn.prefetchEn = false) (n : ℕ) :
    (trace Dmc.cycle r x n).out (x n) = (trace Plain.cycle p x n).out (x n) := by
  cases n with
  | zero =>
    -- during the first reset
    show r.out (x 0) = p.out (x 0)
    have hsim := hlines.reset.out (hen 0)
    unfold Dmc.out Plain.out Dmc.seen Plain.seen at hsim ⊢
    rw [hreset] at hsim ⊢
    exact hsim
  | succ n =>
    have hsim : ∀ k, Sim (trace Dmc.cycle r x (k + 1)) (trace Plain.cycle p x (k + 1)) := by
      intro k
      induction k with
      | zero =>
        show Sim (r.cycle (x 0)) (p.cycle (x 0))
        rw [Dmc.cycle, Plain.cycle, hreset]
        exact hlines.reset
      | succ k ih => exact ih.cycle (hen (k + 1))
    exact (hsim n).out (hen (n + 1))

/-- A bus that reads on, an endless fetch, a hint that is never enabled, and a reset every ten
cycles. -/
def readsOn (n : ℕ) : Cycle 3 where
  rstN := n % 10 != 0
  dmcIn := {
    cpuRd := true
    cpuAaddr := BitVec.ofNat 32 (4 * n)
    cpuDaddr := BitVec.ofNat 32 (4 * (n - 1))
    cpuDvalid := true
    mData := fun k => k.setWidth 8
    mWordDone := fun k => k.toNat ≤ n % 8
    mDone := n % 8 = 7
    prefetchEn := false
    prefetchBase := 64
    prefetchLen := 32 }

theorem prefetch_gated_readsOn :
    (trace Dmc.cycle (Dmc.powerOn 3 4) readsOn 25).out (readsOn 25) =
      (trace Plain.cycle (Plain.powerOn 3 4) readsOn 25).out (readsOn 25) :=
  prefetch_gated 3 4 (Dmc.powerOn 3 4) (Plain.powerOn 3 4) ⟨rfl, rfl, rfl⟩ readsOn rfl
    (fun _ => rfl) 25

end KwsSoc.Xip
