import KwsSoc.Bus.Buffering
import Mathlib.Data.Nat.Count

/-! # Fair arbitration

`busfabric/ahbl_arbiter.v` with `FAIR_ARBITRATION`: a golden ticket goes round the ports, one port
on with each ready cycle of the slave, and its holder is preferred to all others. The state machine
around the grant is the same as under strict priority (`Arbiter.step_eq_clock`). All requests are
eventually served: **`requests_served`**, a request of an `n`-port arbiter is passed on at the
latest in the `n`-th ready cycle after it was made. Under strict priority there is no such bound
(`Arbiter.starves`). -/

namespace KwsSoc.Bus

open SyncMachine

/-! ## The state machine around a grant -/

namespace Arbiter

variable {n : ℕ} {a : Arbiter n} {x : ArbiterIn n} {req gnt : Fin n → Bool} {i : Fin n}

/-- One clock edge, for any `mast_req_a` and `mast_gnt_a`. -/
def clock (a : Arbiter n) (x : ArbiterIn n) (mastReqA mastGntA : Fin n → Bool) : Arbiter n :=
  let bufWen i := (mastReqA i && x.srcHready i) && !(mastGntA i && a.dstHready x)
  { bufValid i :=
      if bufWen i then true
      else if a.dstHready x then a.bufValid i && !mastGntA i else a.bufValid i
    buf i := if bufWen i then x.src i else a.buf i
    mastGntD := if a.dstHready x then mastGntA else a.mastGntD }

theorem step_eq_clock (connMask : Fin n → Bool) (a : Arbiter n) (x : ArbiterIn n) :
    a.step connMask x = a.clock x (a.mastReqA connMask x) (a.mastGntA connMask x) := rfl

theorem clock_mastGntD_of_ready (hd : a.dstHready x = true) :
    (a.clock x req gnt).mastGntD = gnt := if_pos hd

theorem clock_mastGntD_of_stalled (hd : a.dstHready x = false) :
    (a.clock x req gnt).mastGntD = a.mastGntD := by
  show (if a.dstHready x = true then gnt else a.mastGntD) = a.mastGntD
  rw [hd, if_neg Bool.false_ne_true]

/-- A port that is not ready keeps what is stored for it, unless it is granted. -/
theorem clock_stored (req : Fin n → Bool) (hr : x.srcHready i = false) (hb : a.bufValid i = true)
    (hnot : ¬ (gnt i = true ∧ a.dstHready x = true)) :
    (a.clock x req gnt).bufValid i = true ∧ (a.clock x req gnt).buf i = a.buf i := by
  unfold clock
  simp only [hr, hb, Bool.and_false, Bool.false_and, Bool.false_eq_true, if_false, Bool.true_and,
    and_true]
  split
  · rename_i hd
    rw [Bool.not_eq_true']
    exact Bool.eq_false_iff.mpr fun hg => hnot ⟨hg, hd⟩
  · rfl

/-- A grant clears the slot of its port. -/
theorem clock_granted (hg : gnt i = true) (hd : a.dstHready x = true) :
    (a.clock x req gnt).bufValid i = false := by
  unfold clock
  simp only [hg, hd, Bool.and_true, Bool.not_true, Bool.and_false, Bool.false_eq_true, if_false,
    if_true]

/-- A port in a stalled data phase stores nothing. -/
theorem clock_stalled (hr : x.srcHready i = false) (hd : a.dstHready x = false) :
    (a.clock x req gnt).bufValid i = a.bufValid i := by
  unfold clock
  simp only [hr, hd, Bool.and_false, Bool.false_and, Bool.false_eq_true, if_false]

/-- **A clock edge keeps the invariant**, for any grant of at most one port. -/
theorem Inv.clock (h : Inv a) (hgnt : AtMostOne gnt) : Inv (a.clock x req gnt) := by
  cases hd : a.dstHready x with
  | false =>
    refine ⟨?_, fun i hb => ?_⟩
    · rw [clock_mastGntD_of_stalled hd]
      exact h.dphase
    · rw [clock_mastGntD_of_stalled hd]
      by_contra hg
      rw [Bool.not_eq_false] at hg
      rw [clock_stalled (srcHready_of_stalled hd hg) hd] at hb
      exact absurd (hg.symm.trans (h.apart i hb)) (by decide)
  | true =>
    refine ⟨?_, fun i hb => ?_⟩
    · rw [clock_mastGntD_of_ready hd]
      exact hgnt
    · rw [clock_mastGntD_of_ready hd]
      by_contra hg
      rw [Bool.not_eq_false] at hg
      rw [clock_granted hg hd] at hb
      cases hb

/-- When the ports in their data phase obey the arbiter, a ready slave is seen as ready. -/
theorem dstHready_of_resp {resp : Bool}
    (hobey : ∀ i, a.mastGntD i = true → x.srcHready i = a.srcHreadyResp resp i)
    (hresp : resp = true) : a.dstHready x = true := by
  unfold dstHready
  split
  · rename_i hany
    obtain ⟨i, hi⟩ := anyBit_iff.mp hany
    refine anyBit_iff.mpr ⟨i, ?_⟩
    rw [hobey i hi, srcHreadyResp, hi, hresp, Bool.and_true, Bool.and_true, Bool.or_true]
  · rfl

end Arbiter

/-! ## The golden ticket -/

/-- Registers of an `n`-port arbiter with `FAIR_ARBITRATION`. -/
structure FairArbiter (n : ℕ) extends Arbiter n where
  goldenTicket : Fin n → Bool

namespace FairArbiter

variable {n : ℕ}

/-- Reset. -/
def reset (n : ℕ) : FairArbiter n where
  toArbiter := .reset n
  goldenTicket i := decide (i.val = 0)

/-- `{golden_ticket[N_PORTS-2:0], golden_ticket[N_PORTS-1]}`. -/
def rotate (goldenTicket : Fin n → Bool) : Fin n → Bool :=
  fun i => goldenTicket ⟨(i + n - 1) % n, Nat.mod_lt _ i.pos⟩

/-- `req_full`: the request that holds the ticket, and then all of them. -/
def reqFull (mastReqA goldenTicket : Fin n → Bool) : Fin (n + n) → Bool :=
  Fin.append (fun i => mastReqA i && goldenTicket i) mastReqA

/-- The grant of `fair_priority`. -/
def fairPriority (mastReqA goldenTicket : Fin n → Bool) : Fin n → Bool :=
  let gntFull := onehotPriority (reqFull mastReqA goldenTicket)
  fun i => gntFull (i.castAdd n) || gntFull (i.natAdd n)

/-- `mast_gnt_a`. -/
def mastGntA (connMask : Fin n → Bool) (a : FairArbiter n) (x : ArbiterIn n) : Fin n → Bool :=
  fairPriority (a.toArbiter.mastReqA connMask x) a.goldenTicket

/-- One clock edge. -/
def step (connMask : Fin n → Bool) (a : FairArbiter n) (x : ArbiterIn n × Bool) : FairArbiter n where
  toArbiter := a.clock x.1 (a.toArbiter.mastReqA connMask x.1) (a.mastGntA connMask x.1)
  goldenTicket := if x.2 then rotate a.goldenTicket else a.goldenTicket

/-- The address phase driven to the slave. -/
def dstReq (connMask : Fin n → Bool) (a : FairArbiter n) (x : ArbiterIn n) : Req :=
  onehotMuxReq (a.actual x) (a.mastGntA connMask x)

/-- The slave takes the request `r` of port `i` in this cycle. -/
def Issued (connMask : Fin n → Bool) (a : FairArbiter n) (x : ArbiterIn n) (i : Fin n) (r : Req) :
    Prop :=
  a.mastGntA connMask x i = true ∧ a.dstHready x = true ∧ a.dstReq connMask x = r

/-! ## The grant -/

/-- Port `p` alone holds the ticket. -/
def Holder (goldenTicket : Fin n → Bool) (p : Fin n) : Prop :=
  ∀ i, goldenTicket i = true ↔ i = p

/-- The next port. -/
def next (p : Fin n) : Fin n := ⟨(p + 1) % n, Nat.mod_lt _ p.pos⟩

theorem Holder.rotate {g : Fin n → Bool} {p : Fin n} (h : Holder g p) : Holder (rotate g) (next p) := by
  intro i
  unfold FairArbiter.rotate
  rw [h, next, Fin.ext_iff, Fin.ext_iff]
  show (i + n - 1) % n = p ↔ (i : ℕ) = (p + 1) % n
  have hi := i.isLt
  have hp := p.isLt
  -- the two ends of the ring
  rcases Nat.eq_zero_or_pos (i : ℕ) with hz | hpos
  · rw [hz, Nat.zero_add, Nat.mod_eq_of_lt (by omega)]
    rcases Nat.lt_or_ge (p + 1 : ℕ) n with hlt | hge
    · rw [Nat.mod_eq_of_lt hlt]
      omega
    · rw [(by omega : (p : ℕ) + 1 = n), Nat.mod_self]
      omega
  · rw [(by omega : (i : ℕ) + n - 1 = (i - 1) + n), Nat.add_mod_right, Nat.mod_eq_of_lt (by omega)]
    rcases Nat.lt_or_ge (p + 1 : ℕ) n with hlt | hge
    · rw [Nat.mod_eq_of_lt hlt]
      omega
    · rw [(by omega : (p : ℕ) + 1 = n), Nat.mod_self]
      omega

variable {req g : Fin n → Bool} {p : Fin n}

/-- **The holder of the ticket is served** when it requests. -/
theorem fairPriority_holder (h : Holder g p) (hreq : req p = true) :
    fairPriority req g p = true := by
  have hgolden : onehotPriority (reqFull req g) (p.castAdd n) = true := by
    rw [onehotPriority_iff]
    unfold reqFull
    constructor
    · rw [Fin.append_left, hreq, (h p).mpr rfl]
      rfl
    · intro k hk
      induction k using Fin.addCases with
      | left k =>
        -- a lower port does not hold the ticket
        rw [Fin.append_left, Bool.and_eq_false_iff]
        right
        rw [← Bool.not_eq_true, h k]
        rintro rfl
        exact absurd hk (lt_irrefl _)
      | right k =>
        have hlt : n + k.val < p.val := hk
        have hp := p.isLt
        omega
  unfold fairPriority
  rw [hgolden, Bool.true_or]

/-- Only requests are granted. -/
theorem req_of_fairPriority {i : Fin n} (h : fairPriority req g i = true) : req i = true := by
  unfold fairPriority reqFull at h
  rw [Bool.or_eq_true, onehotPriority_iff, onehotPriority_iff, Fin.append_left, Fin.append_right,
    Bool.and_eq_true] at h
  rcases h with ⟨⟨hreq, -⟩, -⟩ | ⟨hreq, -⟩
  · exact hreq
  · exact hreq

/-- **At most one port is granted.** -/
theorem atMostOne_fairPriority (req g : Fin n → Bool) : AtMostOne (fairPriority req g) := by
  have hfull := atMostOne_onehotPriority (reqFull req g)
  intro i j hi hj
  have hi' := i.isLt
  have hj' := j.isLt
  unfold fairPriority at hi hj
  rw [Bool.or_eq_true] at hi hj
  rcases hi with hi | hi <;> rcases hj with hj | hj <;> have heq := congrArg Fin.val (hfull _ _ hi hj) <;>
    simp only [Fin.val_castAdd, Fin.val_natAdd] at heq <;> apply Fin.ext <;> omega

/-! ## One cycle -/

variable {connMask : Fin n → Bool} {a : FairArbiter n} {x : ArbiterIn n} {i : Fin n} {r : Req}
  {resp : Bool}

/-- The slave sees the granted request. -/
theorem dstReq_eq (hg : a.mastGntA connMask x i = true) :
    a.dstReq connMask x = a.actual x i :=
  onehotMuxReq_eq _ (atMostOne_fairPriority _ _) hg

/-- A stored request is active and for this slave. -/
structure Waits (connMask : Fin n → Bool) (a : FairArbiter n) (i : Fin n) (r : Req) : Prop where
  stored : a.Stored i r
  active : r.active = true
  connected : connMask i = true

/-- Its port requests. -/
theorem Waits.mastReqA (h : Waits connMask a i r) (x : ArbiterIn n) :
    a.toArbiter.mastReqA connMask x i = true := by
  unfold Arbiter.mastReqA Arbiter.actual
  rw [if_pos h.stored.1, h.stored.2, h.active, h.connected]
  rfl

/-- **An address phase that ends is passed on or stored.** -/
theorem issued_or_waits (resp : Bool) (hb : a.bufValid i = false) (hc : Arbiter.Completed connMask x i) :
    Issued connMask a x i (x.src i) ∨ Waits connMask (a.step connMask (x, resp)) i (x.src i) := by
  obtain ⟨hactive, hmask, hready⟩ := hc
  have hactual : a.actual x i = x.src i := by
    unfold Arbiter.actual
    rw [hb, if_neg Bool.false_ne_true]
  by_cases hboth : a.mastGntA connMask x i = true ∧ a.dstHready x = true
  · exact Or.inl ⟨hboth.1, hboth.2, by rw [dstReq_eq hboth.1, hactual]⟩
  · have hwen : ((a.toArbiter.mastReqA connMask x i && x.srcHready i) &&
        !(a.mastGntA connMask x i && a.dstHready x)) = true := by
      rw [Arbiter.mastReqA, hactual, hactive, hmask, hready, Bool.and_self, Bool.and_self,
        Bool.true_and, Bool.not_eq_true', ← Bool.not_eq_true, Bool.and_eq_true]
      exact hboth
    exact Or.inr ⟨⟨if_pos hwen, if_pos hwen⟩, hactive, hmask⟩

/-- **A request that waits is passed on or goes on waiting.** -/
theorem Waits.step (h : Waits connMask a i r) (hr : x.srcHready i = false) :
    Issued connMask a x i r ∨ Waits connMask (a.step connMask (x, resp)) i r := by
  by_cases hboth : a.mastGntA connMask x i = true ∧ a.dstHready x = true
  · refine Or.inl ⟨hboth.1, hboth.2, ?_⟩
    rw [dstReq_eq hboth.1, Arbiter.actual, if_pos h.stored.1, h.stored.2]
  · obtain ⟨hb, hbuf⟩ :=
      Arbiter.clock_stored (a.toArbiter.mastReqA connMask x) hr h.stored.1 hboth
    exact Or.inr ⟨⟨hb, hbuf.trans h.stored.2⟩, h.active, h.connected⟩

/-- **The ticket serves**: its holder waits no longer than to the next ready cycle. -/
theorem Waits.issued (h : Waits connMask a i r) (hg : Holder a.goldenTicket i)
    (hd : a.dstHready x = true) : Issued connMask a x i r := by
  have hgnt : a.mastGntA connMask x i = true := fairPriority_holder hg (h.mastReqA x)
  refine ⟨hgnt, hd, ?_⟩
  rw [dstReq_eq hgnt, Arbiter.actual, if_pos h.stored.1, h.stored.2]

/-! ## Runs -/

/-- The arbiter in cycle `t` of a run from reset; the inputs of a cycle are those of the ports and
`dst_hready_resp`. -/
def run (connMask : Fin n → Bool) (ins : ℕ → ArbiterIn n × Bool) (t : ℕ) : FairArbiter n :=
  trace (step connMask) (reset n) ins t

/-- A port whose request is stored or in its data phase sees `src_hready` equal to its
`src_hready_resp`. -/
def Obeyed (connMask : Fin n → Bool) (ins : ℕ → ArbiterIn n × Bool) : Prop :=
  ∀ t i, (run connMask ins t).bufValid i = true ∨ (run connMask ins t).mastGntD i = true →
    (ins t).1.srcHready i = (run connMask ins t).srcHreadyResp (ins t).2 i

section Runs

variable {ins : ℕ → ArbiterIn n × Bool} {t : ℕ}

theorem inv_run (t : ℕ) : (run connMask ins t).Inv :=
  trace_invariant (fun a : FairArbiter n => a.Inv) Arbiter.inv_reset
    (fun _ h => h.clock (atMostOne_fairPriority _ _)) t

variable (connMask ins) in
/-- Somebody holds the ticket. -/
theorem exists_holder (hn : 0 < n) (t : ℕ) : ∃ p, Holder (run connMask ins t).goldenTicket p :=
  trace_invariant (fun a : FairArbiter n => ∃ p, Holder a.goldenTicket p)
    ⟨⟨0, hn⟩, fun i => by
      show decide (i.val = 0) = true ↔ _
      rw [decide_eq_true_iff, Fin.ext_iff]⟩
    (fun t h => by
      obtain ⟨p, hp⟩ := h
      show ∃ p, Holder (if (ins t).2 then rotate _ else _) p
      split
      · exact ⟨next p, hp.rotate⟩
      · exact ⟨p, hp⟩) t

/-- Ready cycles until the ticket is with port `i`. -/
def distance (p i : Fin n) : ℕ := if p ≤ i then i.val - p.val else i.val + n - p.val

theorem distance_lt (p i : Fin n) : distance p i < n := by
  have hp := p.isLt
  have hi := i.isLt
  unfold distance
  split
  · omega
  · rename_i hlt
    have hlt : i.val < p.val := not_le.mp hlt
    omega

theorem distance_next {p i : Fin n} (hne : p ≠ i) : distance (next p) i + 1 = distance p i := by
  have hp := p.isLt
  have hi := i.isLt
  have hne' : p.val ≠ i.val := fun h => hne (Fin.ext h)
  unfold distance next
  simp only [Fin.le_def]
  rcases Nat.lt_or_ge (p.val + 1) n with hlt | hge
  · rw [Nat.mod_eq_of_lt hlt]
    split <;> split <;> omega
  · rw [(by omega : p.val + 1 = n), Nat.mod_self]
    split <;> split <;> omega

/-- A port whose request waits is not ready. -/
theorem Obeyed.not_ready (ho : Obeyed connMask ins)
    (hw : Waits connMask (run connMask ins t) i r) : (ins t).1.srcHready i = false :=
  (inv_run t).srcHready_of_stored (fun hb => ho t i (Or.inl hb)) hw.stored.1

/-- In a ready cycle the slave takes what is granted. -/
theorem Obeyed.dstHready (ho : Obeyed connMask ins) (hresp : (ins t).2 = true) :
    (run connMask ins t).dstHready (ins t).1 = true :=
  Arbiter.dstHready_of_resp (fun i hi => ho t i (Or.inr hi)) hresp

/-- **A request that waits is served** when there are more ready cycles than the ticket needs. The
induction is on the cycles. -/
theorem Obeyed.waits (ho : Obeyed connMask ins) (m : ℕ) {t : ℕ} {p : Fin n}
    (hw : Waits connMask (run connMask ins t) i r)
    (hp : Holder (run connMask ins t).goldenTicket p)
    (hm : distance p i < Nat.count (fun u => (ins (t + u)).2 = true) m) :
    ∃ u < m, Issued connMask (run connMask ins (t + u)) (ins (t + u)).1 i r ∧
      ∀ v ≤ u, Waits connMask (run connMask ins (t + v)) i r := by
  induction m generalizing t p with
  | zero => exact absurd hm (Nat.not_lt_zero _)
  | succ m ih =>
    -- served now
    by_cases hnow : Issued connMask (run connMask ins t) (ins t).1 i r
    · refine ⟨0, Nat.succ_pos m, hnow, fun v hv => ?_⟩
      rw [Nat.le_zero.mp hv]
      exact hw
    -- or one cycle later
    have hnext : Waits connMask (run connMask ins (t + 1)) i r :=
      (hw.step (ho.not_ready hw)).resolve_left hnow
    have hlater : ∃ q, Holder (run connMask ins (t + 1)).goldenTicket q ∧
        distance q i < Nat.count (fun u => (ins (t + 1 + u)).2 = true) m := by
      rw [Nat.count_succ'] at hm
      simp only [Nat.add_zero, ← Nat.add_assoc, Nat.add_right_comm t _ 1] at hm
      show ∃ q, Holder (if (ins t).2 then rotate _ else _) q ∧ _
      cases hresp : (ins t).2 with
      | false =>
        refine ⟨p, hp, ?_⟩
        rwa [if_neg (ne_true_of_eq_false hresp)] at hm
      | true =>
        have hne : p ≠ i := by
          rintro rfl
          exact hnow (hw.issued hp (ho.dstHready hresp))
        refine ⟨next p, hp.rotate, ?_⟩
        have hdist := distance_next hne
        rw [if_pos hresp] at hm
        omega
    obtain ⟨q, hq, hdist⟩ := hlater
    obtain ⟨u, hu, hissued, hwaits⟩ := ih hnext hq hdist
    rw [Nat.add_assoc, Nat.add_comm 1 u] at hissued
    refine ⟨u + 1, Nat.succ_lt_succ hu, hissued, fun v hv => ?_⟩
    cases v with
    | zero => exact hw
    | succ v =>
      have hv' := hwaits v (Nat.le_of_succ_le_succ hv)
      rwa [Nat.add_assoc, Nat.add_comm 1 v] at hv'

/-- **All requests are served**: an address phase that port `i` ends in cycle `t` is passed on, as it
was, in that cycle or before the `n`-th ready cycle after it is over, and its port waits in
between. -/
theorem requests_served (ho : Obeyed connMask ins) (hc : Arbiter.Completed connMask (ins t).1 i)
    {m : ℕ} (hm : n ≤ Nat.count (fun u => (ins (t + 1 + u)).2 = true) m) :
    ∃ u ≤ m, Issued connMask (run connMask ins (t + u)) (ins (t + u)).1 i ((ins t).1.src i) ∧
      ∀ v, 0 < v → v ≤ u → (ins (t + v)).1.srcHready i = false := by
  have hb : (run connMask ins t).bufValid i = false := by
    -- a port that is ready has nothing stored
    by_contra hb
    rw [Bool.not_eq_false] at hb
    have hr := (inv_run t).srcHready_of_stored (fun hb => ho t i (Or.inl hb)) hb
    exact absurd (hc.2.2.symm.trans hr) (by decide)
  rcases issued_or_waits (ins t).2 hb hc with hnow | hwaits
  · refine ⟨0, Nat.zero_le m, hnow, fun v hpos hle => ?_⟩
    exact absurd hle (not_le.mpr hpos)
  · obtain ⟨p, hp⟩ := exists_holder connMask ins i.pos (t + 1)
    obtain ⟨u, hu, hissued, hall⟩ :=
      ho.waits m (t := t + 1) hwaits hp ((distance_lt p i).trans_le hm)
    rw [Nat.add_assoc, Nat.add_comm 1 u] at hissued
    refine ⟨u + 1, hu, hissued, fun v hpos hle => ?_⟩
    obtain ⟨v, rfl⟩ := Nat.exists_eq_succ_of_ne_zero hpos.ne'
    have hv := ho.not_ready (hall v (Nat.le_of_succ_le_succ hle))
    rwa [Nat.add_assoc, Nat.add_comm 1 v] at hv

end Runs

/-- Two ports load at the same time, from a slave that is always ready. -/
def contention (t : ℕ) : ArbiterIn 2 × Bool := (Arbiter.contention t, true)

/-- Nothing is stored and nobody is in a data phase while no port requests. -/
theorem step_of_idle (hidle : ∀ i, a.bufValid i = false ∧ a.mastGntD i = false)
    (hx : ∀ i, (x.src i).active = false) (i : Fin n) :
    (a.step connMask (x, resp)).bufValid i = false ∧
      (a.step connMask (x, resp)).mastGntD i = false := by
  have hreq (i : Fin n) : a.toArbiter.mastReqA connMask x i = false := by
    rw [Arbiter.mastReqA, Arbiter.actual, (hidle i).1, if_neg Bool.false_ne_true, hx i,
      Bool.false_and]
  have hgnt (i : Fin n) : a.mastGntA connMask x i = false := by
    by_contra hg
    rw [Bool.not_eq_false] at hg
    exact absurd ((req_of_fairPriority hg).symm.trans (hreq i)) (by decide)
  unfold step Arbiter.clock
  simp only [hreq, hgnt, (hidle i).1, Bool.false_and, Bool.false_eq_true, if_false, ite_self,
    true_and]
  split
  · exact hgnt i
  · exact (hidle i).2

theorem idle_contention (t : ℕ) (i : Fin 2) :
    (run (fun _ => true) contention (t + 3)).bufValid i = false ∧
      (run (fun _ => true) contention (t + 3)).mastGntD i = false := by
  induction t generalizing i with
  | zero =>
    revert i
    decide
  | succ t ih =>
    refine step_of_idle ih (fun j => ?_) i
    simp [Arbiter.contention, Req.active, Req.zero]

theorem obeyed_contention : Obeyed (fun _ => true) contention := by
  intro t i h
  match t with
  | 0 =>
    revert i
    decide
  | 1 =>
    revert i
    decide
  | 2 =>
    revert i
    decide
  | t + 3 =>
    obtain ⟨hb, hg⟩ := idle_contention t i
    rw [hb, hg] at h
    rcases h with h | h <;> cases h

theorem requests_served_contention :
    ∃ u ≤ 2, Issued (fun _ => true) (run (fun _ => true) contention (0 + u)) (contention (0 + u)).1 1
        ((contention 0).1.src 1) ∧
      ∀ v, 0 < v → v ≤ u → (contention (0 + v)).1.srcHready 1 = false :=
  requests_served obeyed_contention ⟨by decide, by decide, by decide⟩ (by decide)

end FairArbiter

/-! ## Strict priority -/

namespace Arbiter

variable {n : ℕ}

/-- Port 0 makes a request in every cycle, port `i` in the first one. -/
def greedy (i : Fin n) (t : ℕ) : ArbiterIn n where
  srcHready j := decide (t = 0 ∨ j ≠ i)
  src j := if j.val = 0 ∨ (t = 0 ∧ j = i) then { Req.zero with htrans := 2 } else .zero

/-- Port 0 is granted whenever it requests. -/
theorem mastGntA_zero {a : Arbiter n} {x : ArbiterIn n} (h0 : ∀ j : Fin n, j.val = 0 →
    a.mastReqA (fun _ => true) x j = true) (j : Fin n) :
    a.mastGntA (fun _ => true) x j = decide (j.val = 0) := by
  rw [Bool.eq_iff_iff, decide_eq_true_iff, mastGntA, onehotPriority_iff]
  constructor
  · rintro ⟨-, hlow⟩
    by_contra hne
    have h := hlow ⟨0, j.pos⟩ (Fin.lt_def.mpr (Nat.pos_of_ne_zero hne))
    rw [h0 _ rfl] at h
    cases h
  · intro hz
    refine ⟨h0 j hz, fun k hk => ?_⟩
    have hlt : k.val < j.val := hk
    omega

/-- A cycle in which port 0 is served and port `i` waits. -/
structure Waiting (i : Fin n) (t : ℕ) (a : Arbiter n) : Prop where
  bufValid : ∀ j, a.bufValid j = decide (j = i ∧ t ≠ 0)
  mastGntD : ∀ j, a.mastGntD j = decide (j.val = 0 ∧ t ≠ 0)

section Waiting

variable {i : Fin n} {t : ℕ} {a : Arbiter n}

theorem Waiting.mastGntA (h : Waiting i t a) (hi : 0 < i.val) (j : Fin n) :
    a.mastGntA (fun _ => true) (greedy i t) j = decide (j.val = 0) := by
  refine mastGntA_zero (fun j hj => ?_) j
  have hne : j ≠ i := by
    rintro rfl
    omega
  have hb : a.bufValid j = false := by
    rw [h.bufValid, decide_eq_false_iff_not]
    exact fun hc => hne hc.1
  rw [mastReqA, actual, hb, if_neg Bool.false_ne_true, greedy]
  simp only [hj, true_or, if_true]
  rfl

theorem Waiting.dstHready (h : Waiting i t a) (hi : 0 < i.val) : a.dstHready (greedy i t) = true := by
  unfold Arbiter.dstHready
  split
  · rename_i hany
    obtain ⟨j, hj⟩ := anyBit_iff.mp hany
    refine anyBit_iff.mpr ⟨j, ?_⟩
    have hz := hj
    rw [h.mastGntD, decide_eq_true_iff] at hz
    rw [hj, Bool.and_true, greedy, decide_eq_true_iff]
    right
    rintro rfl
    omega
  · rfl

theorem Waiting.step (h : Waiting i t a) (hi : 0 < i.val) :
    Waiting i (t + 1) (a.step (fun _ => true) (greedy i t)) := by
  have hgnt := h.mastGntA hi
  have hd := h.dstHready hi
  refine ⟨fun j => ?_, fun j => ?_⟩
  · unfold Arbiter.step bufWen
    simp only [hgnt, hd, if_true, Bool.and_true, h.bufValid, Nat.succ_ne_zero, ne_eq,
      not_false_eq_true, and_true]
    by_cases hji : j = i
    · -- the request of port `i` is stored in the first cycle, and is not granted later
      obtain rfl := hji
      have hnz : decide (j.val = 0) = false := decide_eq_false hi.ne'
      by_cases ht : t = 0
      · have hb : a.bufValid j = false := by
          rw [h.bufValid, decide_eq_false_iff_not]
          exact fun hc => hc.2 ht
        rw [mastReqA, actual, hb, if_neg Bool.false_ne_true, greedy]
        simp [ht, hnz, Req.active]
      · simp [ht, hnz]
    · by_cases hz : j.val = 0
      · simp [hz, hji]
      · have hb : a.bufValid j = false := by
          rw [h.bufValid, decide_eq_false_iff_not]
          exact fun hc => hji hc.1
        rw [mastReqA, actual, hb, if_neg Bool.false_ne_true, greedy]
        simp [hz, hji, Req.active, Req.zero]
  · unfold Arbiter.step
    simp only [hd, if_true, hgnt, Nat.succ_ne_zero, ne_eq, not_false_eq_true, and_true]

theorem waiting_run (i : Fin n) (hi : 0 < i.val) (t : ℕ) :
    Waiting i t (run (fun _ => true) (greedy i) t) := by
  induction t with
  | zero => exact ⟨fun _ => by simp [run, reset], fun _ => by simp [run, reset]⟩
  | succ t ih => exact ih.step hi

end Waiting

/-- **Strict priority starves**: port `i` can wait for ever behind port 0, whose requests a slave that
is always ready takes one after the other. -/
theorem starves (i : Fin n) (hi : 0 < i.val) :
    Obeyed (fun _ => true) (greedy i) (fun _ => true) ∧
      Completed (fun _ => true) (greedy i 0) i ∧
      ∀ t, (run (fun _ => true) (greedy i) t).mastGntA (fun _ => true) (greedy i t) i = false := by
  refine ⟨fun t j hb => ?_, ⟨?_, rfl, ?_⟩, fun t => ?_⟩
  · have h := waiting_run i hi t
    have hj : j = i ∧ t ≠ 0 := by
      rw [h.bufValid] at hb
      exact of_decide_eq_true hb
    have hz : ¬ (j.val = 0 ∧ t ≠ 0) := by
      rintro ⟨hz, -⟩
      rw [hj.1] at hz
      omega
    rw [srcHreadyResp, hb, h.mastGntD, decide_eq_false hz]
    show decide (t = 0 ∨ j ≠ i) = false
    exact decide_eq_false (by simp [hj.1, hj.2])
  · simp [greedy, Req.active]
  · simp [greedy]
  · rw [(waiting_run i hi t).mastGntA hi]
    exact decide_eq_false hi.ne'

end Arbiter

end KwsSoc.Bus
