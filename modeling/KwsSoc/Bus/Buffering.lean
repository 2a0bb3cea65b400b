import KwsSoc.Bus.Arbiter
import KwsSoc.Lib.SyncMachine

/-! # The request buffers of the arbiter

The arbiter stores an address phase that ends while it cannot be passed on. Four conditions act on
a slot: the buffer write, the clearing of the valid bit, the grant register and the ready of the
slave. A port with a stored request is not ready, which is all that is assumed of the ports
(`Obeyed`); then no request is lost or overwritten, for any number of ports, any mask and any
inputs (**`buffered_of_obeyed`**). -/

namespace KwsSoc.Bus

open SyncMachine

namespace Arbiter

variable {n : ℕ} {connMask : Fin n → Bool} {a : Arbiter n} {x : ArbiterIn n} {i : Fin n}

/-- The request `r` of port `i` is in its buffer. -/
def Stored (a : Arbiter n) (i : Fin n) (r : Req) : Prop := a.bufValid i = true ∧ a.buf i = r

/-- The slave takes the request `r` of port `i` in this cycle. -/
def Issued (connMask : Fin n → Bool) (a : Arbiter n) (x : ArbiterIn n) (i : Fin n) (r : Req) :
    Prop :=
  a.mastGntA connMask x i = true ∧ a.dstHready x = true ∧ a.dstReq connMask x = r

/-- Port `i` ends an active address phase for this connected slave. -/
def Completed (connMask : Fin n → Bool) (x : ArbiterIn n) (i : Fin n) : Prop :=
  (x.src i).active = true ∧ connMask i = true ∧ x.srcHready i = true

/-- **Invariant of the arbiter**: one data phase at a time, and not for a port that waits. -/
structure Inv (a : Arbiter n) : Prop where
  dphase : AtMostOne a.mastGntD
  apart : ∀ i, a.bufValid i = true → a.mastGntD i = false

theorem inv_reset : Inv (reset n) :=
  ⟨fun _ _ hi => absurd hi Bool.false_ne_true, fun _ hi => absurd hi Bool.false_ne_true⟩

/-! ## One cycle -/

/-- While a data phase is stalled, its port is not ready. -/
theorem srcHready_of_stalled (hd : a.dstHready x = false) (hg : a.mastGntD i = true) :
    x.srcHready i = false := by
  have hany : anyBit a.mastGntD = true := anyBit_iff.mpr ⟨i, hg⟩
  rw [dstHready, if_pos hany] at hd
  by_contra hr
  rw [Bool.not_eq_false] at hr
  have hboth : (anyBit fun k => x.srcHready k && a.mastGntD k) = true :=
    anyBit_iff.mpr ⟨i, by simp [hg, hr]⟩
  rw [hboth] at hd
  cases hd

/-- A write needs a ready port. -/
theorem bufWen_of_not_ready (hr : x.srcHready i = false) : a.bufWen connMask x i = false := by
  simp [bufWen, hr]

/-- What the slave takes is not written into the buffer. -/
theorem bufWen_of_issued (hg : a.mastGntA connMask x i = true) (hd : a.dstHready x = true) :
    a.bufWen connMask x i = false := by simp [bufWen, hg, hd]

/-- **A clock edge keeps the invariant**, whatever the inputs. -/
theorem Inv.step (h : Inv a) : Inv (a.step connMask x) := by
  cases hd : a.dstHready x with
  | false =>
    -- the grant stays, and its port is not ready, so that nothing is written behind it
    have hgnt : (a.step connMask x).mastGntD = a.mastGntD := by simp [Arbiter.step, hd]
    refine ⟨?_, fun i hb => ?_⟩
    · rw [hgnt]
      exact h.dphase
    · rw [hgnt]
      by_contra hg
      rw [Bool.not_eq_false] at hg
      have hwen : a.bufWen connMask x i = false := bufWen_of_not_ready (srcHready_of_stalled hd hg)
      have hkeep : (a.step connMask x).bufValid i = a.bufValid i := by
        simp [Arbiter.step, hd, hwen]
      rw [hkeep] at hb
      exact absurd (hg.symm.trans (h.apart i hb)) (by decide)
  | true =>
    -- the grant is the new one, and it clears the buffer of its port
    have hgnt : (a.step connMask x).mastGntD = a.mastGntA connMask x := by simp [Arbiter.step, hd]
    refine ⟨?_, fun i hb => ?_⟩
    · rw [hgnt]
      exact atMostOne_onehotPriority _
    · rw [hgnt]
      by_contra hg
      rw [Bool.not_eq_false] at hg
      simp [Arbiter.step, hd, bufWen_of_issued hg hd, hg] at hb

/-- A port whose request waits sees the arbiter's answer, which is not ready. -/
theorem Inv.srcHready_of_stored (h : Inv a) {resp : Bool}
    (hobey : a.bufValid i = true → x.srcHready i = a.srcHreadyResp resp i)
    (hb : a.bufValid i = true) : x.srcHready i = false := by
  rw [hobey hb, srcHreadyResp, hb, h.apart i hb]
  rfl

/-- The slave sees the granted request. -/
theorem dstReq_eq (hg : a.mastGntA connMask x i = true) :
    a.dstReq connMask x = a.actual x i :=
  onehotMuxReq_eq _ (atMostOne_onehotPriority _) hg

/-- **An address phase that ends is passed on or stored.** -/
theorem issued_or_stored (hb : a.bufValid i = false) (hc : Completed connMask x i) :
    Issued connMask a x i (x.src i) ∨ Stored (a.step connMask x) i (x.src i) := by
  obtain ⟨hactive, hmask, hready⟩ := hc
  have hactual : a.actual x i = x.src i := by simp [actual, hb]
  have hreq : a.mastReqA connMask x i = true := by rw [mastReqA, hactual, hactive, hmask]; rfl
  by_cases hboth : a.mastGntA connMask x i = true ∧ a.dstHready x = true
  · exact .inl ⟨hboth.1, hboth.2, by rw [dstReq_eq hboth.1, hactual]⟩
  · have hwen : a.bufWen connMask x i = true := by
      cases hg : a.mastGntA connMask x i <;> cases hd : a.dstHready x <;>
        simp_all [bufWen]
    exact .inr ⟨by simp [Arbiter.step, hwen], by simp [Arbiter.step, hwen]⟩

/-- **A stored request is passed on or stays.** -/
theorem Stored.next {r : Req} (hs : Stored a i r) (hr : x.srcHready i = false) :
    Issued connMask a x i r ∨ Stored (a.step connMask x) i r := by
  obtain ⟨hb, rfl⟩ := hs
  have hwen : a.bufWen connMask x i = false := bufWen_of_not_ready hr
  have hactual : a.actual x i = a.buf i := by simp [actual, hb]
  by_cases hboth : a.mastGntA connMask x i = true ∧ a.dstHready x = true
  · exact .inl ⟨hboth.1, hboth.2, by rw [dstReq_eq hboth.1, hactual]⟩
  · refine .inr ⟨?_, by simp [Arbiter.step, hwen]⟩
    cases hg : a.mastGntA connMask x i <;> cases hd : a.dstHready x <;>
      simp_all [Arbiter.step]

/-- A request that is passed on leaves the buffer, and its data phase begins. -/
theorem Issued.next {r : Req} (hi : Issued connMask a x i r) :
    (a.step connMask x).bufValid i = false ∧ (a.step connMask x).mastGntD i = true := by
  obtain ⟨hg, hd, -⟩ := hi
  refine ⟨?_, by simp [Arbiter.step, hd, hg]⟩
  simp [Arbiter.step, bufWen_of_issued hg hd, hd, hg]

/-! ## Runs -/

/-- The arbiter in cycle `t` of a run from reset. -/
def run (connMask : Fin n → Bool) (ins : ℕ → ArbiterIn n) (t : ℕ) : Arbiter n :=
  trace (Arbiter.step connMask) (reset n) ins t

/-- A port whose request is stored sees `src_hready` equal to its `src_hready_resp`; `resp` is
`dst_hready_resp`. -/
def Obeyed (connMask : Fin n → Bool) (ins : ℕ → ArbiterIn n) (resp : ℕ → Bool) : Prop :=
  ∀ t i, (run connMask ins t).bufValid i = true →
    (ins t).srcHready i = (run connMask ins t).srcHreadyResp (resp t) i

/-- **Correct buffering** in a run. -/
structure Buffered (connMask : Fin n → Bool) (ins : ℕ → ArbiterIn n) : Prop where
  /-- At most one address-phase grant. -/
  aphase : ∀ t, AtMostOne ((run connMask ins t).mastGntA connMask (ins t))
  /-- At most one data-phase grant. -/
  dphase : ∀ t, AtMostOne (run connMask ins t).mastGntD
  /-- No port waits and is in its data phase. -/
  apart : ∀ t i, ¬ ((run connMask ins t).bufValid i = true ∧ (run connMask ins t).mastGntD i = true)
  /-- An address phase that ends is passed on in that cycle or stored. -/
  accepted : ∀ t i, Completed connMask (ins t) i →
    Issued connMask (run connMask ins t) (ins t) i ((ins t).src i) ∨
      Stored (run connMask ins (t + 1)) i ((ins t).src i)
  /-- A stored request stays until it is passed on. -/
  kept : ∀ t i r, Stored (run connMask ins t) i r → ∀ k,
    (∀ l < k, ¬ Issued connMask (run connMask ins (t + l)) (ins (t + l)) i r) →
    Stored (run connMask ins (t + k)) i r
  /-- What is passed on for a port that waits is what was stored, and its data phase begins. -/
  issued : ∀ t i r r', Stored (run connMask ins t) i r →
    Issued connMask (run connMask ins t) (ins t) i r' → r' = r ∧
      (run connMask ins (t + 1)).bufValid i = false ∧ (run connMask ins (t + 1)).mastGntD i = true

section Runs

variable {ins : ℕ → ArbiterIn n} {resp : ℕ → Bool}

theorem run_succ (t : ℕ) :
    run connMask ins (t + 1) = (run connMask ins t).step connMask (ins t) := rfl

theorem inv_run (t : ℕ) : Inv (run connMask ins t) :=
  trace_invariant Inv inv_reset (fun _ h => h.step) t

/-- A port whose request is stored is not ready. -/
theorem Obeyed.not_ready (ho : Obeyed connMask ins resp) {t : ℕ} {i : Fin n}
    (hb : (run connMask ins t).bufValid i = true) : (ins t).srcHready i = false :=
  (inv_run t).srcHready_of_stored (ho t i) hb

/-- A stored request stays as long as it is not passed on. -/
theorem Obeyed.kept (ho : Obeyed connMask ins resp) {t : ℕ} {i : Fin n} {r : Req}
    (hs : Stored (run connMask ins t) i r) (k : ℕ)
    (hnot : ∀ l < k, ¬ Issued connMask (run connMask ins (t + l)) (ins (t + l)) i r) :
    Stored (run connMask ins (t + k)) i r := by
  induction k with
  | zero => exact hs
  | succ k ih =>
    have hk := ih fun l hl => hnot l (Nat.lt_succ_of_lt hl)
    exact (hk.next (ho.not_ready hk.1)).resolve_left (hnot k (Nat.lt_succ_self k))

/-- **The arbiter neither loses nor overwrites a request**, for any number of ports. -/
theorem buffered_of_obeyed (ho : Obeyed connMask ins resp) : Buffered connMask ins where
  aphase t := atMostOne_onehotPriority _
  dphase t := (inv_run t).dphase
  apart t i := by
    rintro ⟨hb, hg⟩
    exact absurd (hg.symm.trans ((inv_run t).apart i hb)) (by decide)
  accepted t i hc := by
    refine issued_or_stored ?_ hc
    -- a port that is ready has nothing stored
    by_contra hb
    rw [Bool.not_eq_false] at hb
    exact absurd (hc.2.2.symm.trans (ho.not_ready hb)) (by decide)
  kept t i r hs k hnot := ho.kept hs k hnot
  issued t i r r' hs hi := by
    refine ⟨?_, hi.next⟩
    have hactual : (run connMask ins t).actual (ins t) i = r := by
      rw [actual, if_pos hs.1, hs.2]
    exact hi.2.2.symm.trans ((dstReq_eq hi.1).trans hactual)

/-- Nothing is stored while no port requests. -/
theorem bufValid_step_of_idle (hb : ∀ i, a.bufValid i = false)
    (hx : ∀ i, (x.src i).active = false) (i : Fin n) :
    (a.step connMask x).bufValid i = false := by
  simp [Arbiter.step, bufWen, mastReqA, actual, hb, hx]

end Runs

/-- Two ports load at the same time; the second one waits for a cycle. -/
def contention (t : ℕ) : ArbiterIn 2 where
  srcHready i := decide (t ≠ 1 ∨ i = 0)
  src _ := if t = 0 then { Req.zero with htrans := 2 } else .zero

theorem buffered_contention : Buffered (fun _ => true) contention := by
  refine buffered_of_obeyed (?_ : Obeyed (fun _ => true) contention fun _ => true)
  intro t i hb
  -- the second port waits in cycle 1 only
  have hlater (t : ℕ) (i : Fin 2) : (run (fun _ => true) contention (t + 2)).bufValid i = false := by
    induction t generalizing i with
    | zero =>
      revert i
      decide
    | succ t ih => exact bufValid_step_of_idle ih (fun _ => by simp [contention, Req.active, Req.zero]) i
  match t with
  | 0 => exact absurd hb Bool.false_ne_true
  | 1 =>
    revert i
    decide
  | t + 2 => exact absurd ((hlater t i).symm.trans hb) Bool.false_ne_true

end Arbiter

end KwsSoc.Bus
