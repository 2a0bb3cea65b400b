import KwsSoc.Xip.FlashCtrl

/-! # The read-only cache

A model of `ro_dmc` in `peris/xip/ro_cache.v` for `2 ^ l` lines of `2 ^ w` words: the main cache,
the early restart by words (`fwv`), the deferred miss and the one-line prefetch buffer. The debug
counters are left out. -/

namespace KwsSoc.Xip

open ByteWord

/-! ## Address fields -/

/-- Line number of an address. -/
def lineNo (w l : ℕ) (a : BitVec 32) : BitVec l := a.extractLsb' (w + 2) l

/-- Width of a tag. -/
abbrev tagWidth (w l : ℕ) : ℕ := 32 - l - (w + 2)

/-- Tag of an address. -/
def tagOf (w l : ℕ) (a : BitVec 32) : BitVec (tagWidth w l) :=
  a.extractLsb' (l + (w + 2)) (tagWidth w l)

/-- Word number of an address within its line. -/
def wordNo (w : ℕ) (a : BitVec 32) : BitVec w := a.extractLsb' 2 w

/-- Word `k` of a line. -/
def Line.word {w : ℕ} (d : Line w) (k : BitVec w) : BitVec 32 :=
  ofLanes (d (k ++ 0#2)) (d (k ++ 1#2)) (d (k ++ 2#2)) (d (k ++ 3#2))

/-! ## Registers and inputs -/

/-- Registers of the cache; `fetching` is `state == ST_FETCH`. -/
structure Dmc (w l : ℕ) where
  data : BitVec l → Line w
  tag : BitVec l → BitVec (tagWidth w l)
  valid : BitVec l → Bool
  fetching : Bool
  missAddrReg : BitVec 32
  mStartReg : Bool
  fetchLineReg : BitVec l
  fetchTagReg : BitVec (tagWidth w l)
  pfPending : Bool
  pfAddrCapture : BitVec 32
  fetchIsPf : Bool
  prefetchEnD : Bool
  pfData : Line w
  pfTag : BitVec (tagWidth w l)
  pfLine : BitVec l
  pfValid : Bool
  mWordDoneD : BitVec w → Bool
  fwv : BitVec w → Bool

/-- Inputs of the cache in one cycle. -/
structure DmcIn (w : ℕ) where
  cpuRd : Bool
  cpuAaddr : BitVec 32
  cpuDaddr : BitVec 32
  cpuDvalid : Bool
  mData : Line w
  mWordDone : BitVec w → Bool
  mDone : Bool
  prefetchEn : Bool
  prefetchBase : BitVec 32
  prefetchLen : BitVec 32

namespace Dmc

variable {w l : ℕ}

/-- Power-on: nothing is valid, by the `initial` block. -/
def powerOn (w l : ℕ) : Dmc w l where
  data _ _ := 0
  tag _ := 0
  valid _ := false
  fetching := false
  missAddrReg := 0
  mStartReg := false
  fetchLineReg := 0
  fetchTagReg := 0
  pfPending := false
  pfAddrCapture := 0
  fetchIsPf := false
  prefetchEnD := false
  pfData _ := 0
  pfTag := 0
  pfLine := 0
  pfValid := false
  mWordDoneD _ := false
  fwv _ := false

/-- Reset: the arrays and the line under fetch have no reset value and keep what they hold. -/
def reset (r : Dmc w l) : Dmc w l :=
  { r with
    fetching := false, missAddrReg := 0, mStartReg := false, pfPending := false
    pfAddrCapture := 0, fetchIsPf := false, prefetchEnD := false, pfData := fun _ => 0
    pfTag := 0, pfLine := 0, pfValid := false, mWordDoneD := fun _ => false
    fwv := fun _ => false }

/-! ## Hits -/

/-- A hit in the main cache. -/
def hitFull (r : Dmc w l) (a : BitVec 32) : Bool :=
  (r.tag (lineNo w l a) == tagOf w l a) && r.valid (lineNo w l a)

/-- An early-restart hit: the line is under fetch and the word has landed. -/
def hitCwf (r : Dmc w l) (a : BitVec 32) : Bool :=
  r.fetching && !r.fetchIsPf && (lineNo w l a == r.fetchLineReg) &&
    (tagOf w l a == r.fetchTagReg) && r.fwv (wordNo w a)

/-- A hit in the prefetch buffer. -/
def hitPf (r : Dmc w l) (prefetchEn : Bool) (a : BitVec 32) : Bool :=
  prefetchEn && r.pfValid && (lineNo w l a == r.pfLine) && (tagOf w l a == r.pfTag)

/-- `ahit` and `dhit`. -/
def hit (r : Dmc w l) (prefetchEn : Bool) (a : BitVec 32) : Bool :=
  r.hitFull a || r.hitCwf a || r.hitPf prefetchEn a

/-- `cpu_data`. -/
def cpuData (r : Dmc w l) (prefetchEn : Bool) (daddr : BitVec 32) : BitVec 32 :=
  (if r.hitPf prefetchEn daddr then r.pfData else r.data (lineNo w l daddr)).word (wordNo w daddr)

/-- A fresh address phase that misses. -/
def amiss (r : Dmc w l) (x : DmcIn w) : Bool := x.cpuRd && !r.hit x.prefetchEn x.cpuAaddr

/-- A held data phase that misses. -/
def dmiss (r : Dmc w l) (x : DmcIn w) : Bool := x.cpuDvalid && !r.hit x.prefetchEn x.cpuDaddr

/-! ## One clock edge -/

/-- Entry into `ST_FETCH` for a demand miss at address `a`. -/
def demand (r : Dmc w l) (a : BitVec 32) : Dmc w l :=
  { r with
    fetching := true, missAddrReg := a
    valid := Function.update r.valid (lineNo w l a) false
    fetchLineReg := lineNo w l a, fetchTagReg := tagOf w l a, mStartReg := true
    fetchIsPf := false }

/-- Entry into `ST_FETCH` for the pending prefetch. -/
def prefetch (r : Dmc w l) : Dmc w l :=
  { r with
    fetching := true, missAddrReg := r.pfAddrCapture
    fetchLineReg := lineNo w l r.pfAddrCapture, fetchTagReg := tagOf w l r.pfAddrCapture
    mStartReg := true, fetchIsPf := true }

/-- The main FSM in `ST_IDLE`. -/
def stepIdle (r : Dmc w l) (x : DmcIn w) : Dmc w l :=
  if r.amiss x then r.demand x.cpuAaddr
  else if r.dmiss x then r.demand x.cpuDaddr
  else if r.pfPending then r.prefetch
  else r

/-- The line is complete: publish it in the main cache or in the prefetch buffer. -/
def finish (r : Dmc w l) (mData : Line w) : Dmc w l :=
  if r.fetchIsPf then
    { r with
      fetching := false, pfData := mData, pfTag := tagOf w l r.missAddrReg
      pfLine := lineNo w l r.missAddrReg, pfValid := true }
  else
    { r with
      fetching := false
      tag := Function.update r.tag (lineNo w l r.missAddrReg) (tagOf w l r.missAddrReg)
      valid := Function.update r.valid (lineNo w l r.missAddrReg) true }

/-- The main FSM in `ST_FETCH`: outside prefetches the line mirrors `m_data`. -/
def stepFetch (r : Dmc w l) (x : DmcIn w) : Dmc w l :=
  let r' := { r with
    mStartReg := false
    data := if r.fetchIsPf then r.data else Function.update r.data r.fetchLineReg x.mData }
  if x.mDone then r'.finish x.mData else r'

/-- The main FSM after an edge. -/
def stepMain (r : Dmc w l) (x : DmcIn w) : Dmc w l :=
  if r.fetching then r.stepFetch x else r.stepIdle x

/-- A rising edge of `prefetch_en` with a non-zero length. -/
def freshHint (r : Dmc w l) (x : DmcIn w) : Bool :=
  x.prefetchEn && !r.prefetchEnD && x.prefetchLen != 0#32

/-- One clock edge. -/
def step (r : Dmc w l) (x : DmcIn w) : Dmc w l :=
  { r.stepMain x with
    prefetchEnD := x.prefetchEn
    pfPending :=
      if r.freshHint x then true
      else if !r.fetching && r.pfPending && !r.amiss x && !r.dmiss x then false
      else r.pfPending
    pfAddrCapture := if r.freshHint x then x.prefetchBase else r.pfAddrCapture
    mWordDoneD := x.mWordDone
    fwv :=
      if !r.fetching && (r.amiss x || r.dmiss x) then fun _ => false
      else if r.fetching then fun k => r.fwv k || (x.mWordDone k && !r.mWordDoneD k)
      else r.fwv }

end Dmc

end KwsSoc.Xip
