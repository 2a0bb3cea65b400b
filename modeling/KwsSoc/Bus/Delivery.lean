import KwsSoc.Bus.Crossbar

/-! # Delivery of transfers through the crossbar

When does every transfer of a master reach its slave exactly once, with its own write data? The
arbiter of an idle slave grants an address phase without asking whether the master that presents it
is still waiting for another slave. `exactlyOnce_iff`: the crossbar delivers exactly once if and
only if no master presents an address phase that is granted while its own `HREADY` is low
(`Overlap`). `overlap_write` is a legal run with such an overlap: a store is accepted twice and the
slave samples the wrong data. -/

namespace KwsSoc.Bus

open SyncMachine

namespace Xbar

variable {M N : ℕ} (W : Wiring M N)

/-! ## One cycle -/

/-- Master `i` presents an active address phase for the connected slave `j`. -/
def Live (x : XbarIn M N) (i : Fin M) (j : Fin N) : Bool :=
  W.slaveSelA i (x.req i) j && (x.req i).active

/-- Slave `j` accepts an address phase of master `i`. -/
def accepts (s : Xbar M N) (x : XbarIn M N) (j : Fin N) (i : Fin M) : Bool :=
  s.gntA W x j i && s.dstHready W x j

/-- **Overlap**: the `HREADY` of master `i` is low while it presents an address phase for slave
`j`, and the arbiter of `j` has a free address slot for it: no earlier request of the master waits
there, no master of higher priority requests `j`, and the data phase at `j`, if any, is over. -/
structure Overlap (s : Xbar M N) (x : XbarIn M N) (i : Fin M) (j : Fin N) : Prop where
  waiting : s.hready W x i = false
  live : Live W x i j = true
  empty : (s.arb j).bufValid i = false
  highest : ∀ k < i, (s.arb j).mastReqA (W.connMatrixTranspose j) (s.arbIn W x j) k = false
  free : s.dstHready W x j = true

/-- **Invariant**: a master is in the data phase of at most one slave, where its request either
waits in the buffer or is served, and a slave serves at most one master. -/
structure Inv (s : Xbar M N) : Prop where
  wait : ∀ i j, (s.arb j).bufValid i = true → (s.split i).slaveSelD j = true ∧
    (s.arb j).mastGntD i = false ∧ ((s.arb j).buf i).active = true
  serve : ∀ i j, (s.arb j).mastGntD i = true → (s.split i).slaveSelD j = true
  single : ∀ i j k, (s.split i).slaveSelD j = true → (s.split i).slaveSelD k = true → j = k
  conn : ∀ i j, (s.split i).slaveSelD j = true → W.connMatrix i j = true
  owner : ∀ j, AtMostOne (s.arb j).mastGntD

theorem inv_reset : Inv W (reset M N) := by
  refine ⟨?_, ?_, ?_, ?_, ?_⟩ <;> intros <;> simp_all [reset, Splitter.reset, Arbiter.reset,
    AtMostOne]

section Cycle

variable {W} {s : Xbar M N} {x : XbarIn M N} {i : Fin M} {j : Fin N}

/-- The phase a selected splitter port passes on is the master's. -/
theorem splitReq_of_sel (h : W.slaveSelA i (x.req i) j = true) : splitReq W x i j = x.req i := by
  rw [splitReq, if_pos (W.slaveSelA_conn h), if_pos h]

/-- Without a buffered request the arbiter sees the live one. -/
theorem mastReqA_of_empty (hb : (s.arb j).bufValid i = false) :
    (s.arb j).mastReqA (W.connMatrixTranspose j) (s.arbIn W x j) i = Live W x i j := by
  rw [Arbiter.mastReqA, Arbiter.actual, hb, W.consistent, Live]
  by_cases hsel : W.slaveSelA i (x.req i) j = true
  · simp [arbIn, splitReq_of_sel hsel, hsel, W.slaveSelA_conn hsel]
  · simp only [Bool.false_eq_true, if_false, arbIn, splitReq, Bool.not_eq_true _ ▸ hsel]
    cases hc : W.connMatrix i j <;> simp [Req.active]

theorem gntA_iff : s.gntA W x j i = true ↔
    (s.arb j).mastReqA (W.connMatrixTranspose j) (s.arbIn W x j) i = true ∧
      ∀ k < i, (s.arb j).mastReqA (W.connMatrixTranspose j) (s.arbIn W x j) k = false :=
  onehotPriority_iff

/-- An overlap is an acceptance of a live address phase while `HREADY` is low. -/
theorem overlap_iff : Overlap W s x i j ↔ s.hready W x i = false ∧
    (s.arb j).bufValid i = false ∧ s.accepts W x j i = true := by
  constructor
  · intro h
    refine ⟨h.waiting, h.empty, ?_⟩
    rw [accepts, h.free, Bool.and_true, gntA_iff, mastReqA_of_empty h.empty]
    exact ⟨h.live, h.highest⟩
  · rintro ⟨hr, hb, ha⟩
    rw [accepts, Bool.and_eq_true, gntA_iff, mastReqA_of_empty hb] at ha
    exact ⟨hr, ha.1.1, hb, ha.1.2, ha.2⟩

/-- A master whose request waits in a buffer is not ready. -/
theorem hready_of_wait (h : Inv W s) (hb : (s.arb j).bufValid i = true) :
    s.hready W x i = false := by
  obtain ⟨hsel, hg, -⟩ := h.wait i j hb
  have hany : anyBit (s.split i).slaveSelD = true := anyBit_iff.mpr ⟨j, hsel⟩
  rw [hready, Splitter.srcHreadyResp, hany, Bool.not_true, Bool.false_and, Bool.false_or,
    Bool.eq_false_iff]
  intro hex
  obtain ⟨k, hk⟩ := anyBit_iff.mp hex
  rw [Bool.and_eq_true] at hk
  obtain rfl := h.single i j k hsel hk.1
  have hresp := hk.2
  rw [splitHreadyResp, if_pos (h.conn i j hsel), Arbiter.srcHreadyResp, hb, hg] at hresp
  simp at hresp

/-- A served master is ready when its slave is. -/
theorem hready_of_serve (h : Inv W s) (hg : (s.arb j).mastGntD i = true) :
    s.hready W x i = x.hreadyResp j := by
  have hsel := h.serve i j hg
  have hany : anyBit (s.split i).slaveSelD = true := anyBit_iff.mpr ⟨j, hsel⟩
  have hresp : s.splitHreadyResp W x i j = x.hreadyResp j := by
    rw [splitHreadyResp, if_pos (h.conn i j hsel), Arbiter.srcHreadyResp, hg]
    simp
  rw [hready, Splitter.srcHreadyResp, hany, Bool.not_true, Bool.false_and, Bool.false_or,
    Bool.eq_iff_iff, anyBit_iff]
  constructor
  · rintro ⟨k, hk⟩
    rw [Bool.and_eq_true] at hk
    obtain rfl := h.single i j k hsel hk.1
    rw [← hresp]
    exact hk.2
  · intro hx
    exact ⟨j, by rw [hsel, hresp, hx]; rfl⟩

/-- A slave that serves a master sees that master's `HREADY`. -/
theorem dstHready_of_serve (h : Inv W s) (hg : (s.arb j).mastGntD i = true) :
    s.dstHready W x j = s.hready W x i := by
  have hc := h.conn i j (h.serve i j hg)
  rw [dstHready, Arbiter.dstHready, if_pos (anyBit_iff.mpr ⟨i, hg⟩), Bool.eq_iff_iff, anyBit_iff]
  constructor
  · rintro ⟨k, hk⟩
    rw [Bool.and_eq_true] at hk
    obtain rfl := h.owner j i k hg hk.2
    simpa [arbIn, hc] using hk.1
  · intro hr
    exact ⟨i, by simp [arbIn, hc, hr, hg]⟩

/-- A slave that serves a master sees that master's write data. -/
theorem dstHwdata_of_serve (h : Inv W s) (hg : (s.arb j).mastGntD i = true) :
    s.dstHwdata W x j = x.hwdata i := by
  rw [dstHwdata, Arbiter.dstHwdata, onehotMux_eq _ (h.owner j) hg,
    if_pos (h.conn i j (h.serve i j hg))]

/-- The address phase an accepting slave sees: the buffered or the live one. -/
theorem dstReq_of_accepts (ha : s.accepts W x j i = true) :
    s.dstReq W x j = (s.arb j).actual (s.arbIn W x j) i := by
  rw [accepts, Bool.and_eq_true] at ha
  exact onehotMuxReq_eq _ (atMostOne_onehotPriority _) ha.1

/-- An acceptance without a buffered request is one of a live address phase. -/
theorem live_of_accepts (hb : (s.arb j).bufValid i = false) (ha : s.accepts W x j i = true) :
    Live W x i j = true := by
  rw [accepts, Bool.and_eq_true, gntA_iff, mastReqA_of_empty hb] at ha
  exact ha.1.1

/-! ## One edge, master by master -/

/-- **A ready master**: the arbiters serve what they accept and buffer what they do not. -/
theorem next_of_ready (h : Inv W s) (hr : s.hready W x i = true) (j : Fin N) :
    ((s.step W x).arb j).mastGntD i = s.accepts W x j i ∧
      ((s.step W x).arb j).bufValid i = (Live W x i j && !s.accepts W x j i) ∧
      (((s.step W x).arb j).bufValid i = true → ((s.step W x).arb j).buf i = x.req i) := by
  have hb : (s.arb j).bufValid i = false := by
    rw [Bool.eq_false_iff]
    intro hb
    rw [hready_of_wait h hb] at hr
    cases hr
  have hwen : (s.arb j).bufWen (W.connMatrixTranspose j) (s.arbIn W x j) i =
      (Live W x i j && !s.accepts W x j i) := by
    have hsrc : (s.arbIn W x j).srcHready i = true := by
      change (if W.connMatrix i j then s.hready W x i else true) = true
      rw [hr]
      simp
    rw [Arbiter.bufWen, mastReqA_of_empty hb, hsrc, Bool.and_true]
    rfl
  refine ⟨?_, ?_, ?_⟩
  · change (if s.dstHready W x j then s.gntA W x j else (s.arb j).mastGntD) i = _
    rw [accepts]
    cases hd : s.dstHready W x j with
    | true => simp
    | false =>
      -- a served master would have made the slave ready
      cases hg : (s.arb j).mastGntD i with
      | true =>
        rw [dstHready_of_serve h hg, hr] at hd
        cases hd
      | false => simp [hg]
  · change (if (s.arb j).bufWen _ _ i then true else _) = _
    rw [hwen, hb]
    cases Live W x i j && !s.accepts W x j i <;> simp
  · intro hv
    change (if (s.arb j).bufWen _ _ i then true else _) = true at hv
    change (if (s.arb j).bufWen _ _ i then (s.arbIn W x j).src i else _) = _
    rw [hwen, hb] at hv
    rw [hwen]
    cases hl : Live W x i j && !s.accepts W x j i with
    | true =>
      rw [if_pos rfl]
      rw [Live, Bool.and_eq_true, Bool.and_eq_true] at hl
      exact splitReq_of_sel hl.1.1
    | false =>
      rw [hl] at hv
      simp at hv

/-- **A waiting master without overlap**: its buffered request is served once it is accepted, and
otherwise nothing changes for it. -/
theorem next_of_waiting (h : Inv W s) (hr : s.hready W x i = false)
    (hno : ¬ Overlap W s x i j) :
    ((s.step W x).arb j).mastGntD i = ((s.arb j).mastGntD i || s.accepts W x j i) ∧
      ((s.step W x).arb j).bufValid i = ((s.arb j).bufValid i && !s.accepts W x j i) ∧
      ((s.step W x).arb j).buf i = (s.arb j).buf i ∧
      (s.accepts W x j i = true → (s.arb j).bufValid i = true) := by
  -- an unbuffered request that is accepted while its master waits is an overlap
  have hbuf : s.accepts W x j i = true → (s.arb j).bufValid i = true := by
    intro ha
    by_contra hb
    exact hno (overlap_iff.mpr ⟨hr, Bool.eq_false_iff.mpr hb, ha⟩)
  -- a waiting master writes no buffer
  have hwen : (s.arb j).bufWen (W.connMatrixTranspose j) (s.arbIn W x j) i = false := by
    cases hc : W.connMatrix i j with
    | true => simp [Arbiter.bufWen, arbIn, hc, hr]
    | false => simp [Arbiter.bufWen, Arbiter.mastReqA, W.consistent, hc]
  refine ⟨?_, ?_, ?_, hbuf⟩
  · change (if s.dstHready W x j then s.gntA W x j else (s.arb j).mastGntD) i = _
    cases hg : (s.arb j).mastGntD i with
    | true =>
      rw [dstHready_of_serve h hg, hr]
      simp [hg]
    | false =>
      rw [accepts]
      cases s.dstHready W x j <;> simp [hg]
  · change (if (s.arb j).bufWen _ _ i then true else if s.dstHready W x j then
      (s.arb j).bufValid i && !s.gntA W x j i else (s.arb j).bufValid i) = _
    rw [hwen, accepts]
    cases s.dstHready W x j <;> simp
  · change (if (s.arb j).bufWen _ _ i then (s.arbIn W x j).src i else (s.arb j).buf i) = _
    rw [hwen]
    rfl

/-- **Step lemma**: without overlaps an edge keeps the invariant. -/
theorem Inv.step (h : Inv W s) (hno : ∀ i j, ¬ Overlap W s x i j) : Inv W (s.step W x) := by
  have hsel : ∀ i, ((s.step W x).split i).slaveSelD =
      if s.hready W x i then W.slaveSelA i (x.req i) else (s.split i).slaveSelD := fun _ => rfl
  refine ⟨fun i j hb => ?_, fun i j hg => ?_, fun i j k hj hk => ?_, fun i j hj => ?_,
    fun j => ?_⟩
  -- a buffered request is that of the selected slave
  · cases hr : s.hready W x i with
    | true =>
      obtain ⟨hg', hb', hreq⟩ := next_of_ready h hr j
      have hreq := hreq hb
      rw [hb', Bool.and_eq_true] at hb
      have hl := hb.1
      rw [Live, Bool.and_eq_true] at hl
      rw [hsel, hr, hg', hreq]
      exact ⟨hl.1, by simpa using hb.2, hl.2⟩
    | false =>
      obtain ⟨hg', hb', hreq, -⟩ := next_of_waiting h hr (hno i j)
      rw [hb', Bool.and_eq_true] at hb
      obtain ⟨hs, hg, hact⟩ := h.wait i j hb.1
      rw [hsel, hr, hg', hreq, hg]
      exact ⟨hs, by simpa using hb.2, hact⟩
  · cases hr : s.hready W x i with
    | true =>
      rw [(next_of_ready h hr j).1] at hg
      have hb : (s.arb j).bufValid i = false := by
        rw [Bool.eq_false_iff]
        intro hb
        rw [hready_of_wait h hb] at hr
        cases hr
      have hl := live_of_accepts hb hg
      rw [Live, Bool.and_eq_true] at hl
      rw [hsel, hr]
      exact hl.1
    | false =>
      obtain ⟨hg', -, -, hbuf⟩ := next_of_waiting h hr (hno i j)
      rw [hg', Bool.or_eq_true] at hg
      rw [hsel, hr]
      rcases hg with hg | ha
      · exact h.serve i j hg
      · exact (h.wait i j (hbuf ha)).1
  · rw [hsel] at hj hk
    cases hr : s.hready W x i with
    | true =>
      rw [hr] at hj hk
      exact W.slaveSelA_unique hj hk
    | false =>
      rw [hr] at hj hk
      exact h.single i j k hj hk
  · rw [hsel] at hj
    cases hr : s.hready W x i with
    | true =>
      rw [hr] at hj
      exact W.slaveSelA_conn hj
    | false =>
      rw [hr] at hj
      exact h.conn i j hj
  · change AtMostOne (if s.dstHready W x j then s.gntA W x j else (s.arb j).mastGntD)
    split
    · exact atMostOne_onehotPriority _
    · exact h.owner j

end Cycle

/-! ## Runs -/

section Run

variable {W} (ins : ℕ → XbarIn M N)

/-- The state in cycle `n` of a run from reset. -/
def run (W : Wiring M N) (ins : ℕ → XbarIn M N) (n : ℕ) : Xbar M N :=
  trace (step W) (reset M N) ins n

/-- `HREADY` of master `i` in cycle `n`. -/
def readyAt (W : Wiring M N) (ins : ℕ → XbarIn M N) (n : ℕ) (i : Fin M) : Bool :=
  (run W ins n).hready W (ins n) i

/-- Slave `j` accepts an address phase of master `i` in cycle `n`. -/
def acceptsAt (W : Wiring M N) (ins : ℕ → XbarIn M N) (n : ℕ) (j : Fin N) (i : Fin M) : Bool :=
  (run W ins n).accepts W (ins n) j i

/-- **A transfer**: master `i` ends an active address phase for the connected slave `j` in
cycle `n`. -/
def Takes (W : Wiring M N) (ins : ℕ → XbarIn M N) (n : ℕ) (i : Fin M) (j : Fin N) : Prop :=
  readyAt W ins n i = true ∧ Live W (ins n) i j = true

/-- Cycle `k` belongs to the data phase of the transfer that master `i` took in cycle `n`; the
data phase ends in its first cycle with `HREADY` high. -/
def InDataPhase (W : Wiring M N) (ins : ℕ → XbarIn M N) (n : ℕ) (i : Fin M) (k : ℕ) : Prop :=
  n < k ∧ ∀ l, n < l → l < k → readyAt W ins l i = false

/-- **Exactly-once delivery** of a run. -/
structure ExactlyOnce (W : Wiring M N) (ins : ℕ → XbarIn M N) : Prop where
  /-- A transfer whose data phase is over was accepted in exactly one cycle. -/
  once : ∀ n i j, Takes W ins n i j → ∀ k, InDataPhase W ins n i k → readyAt W ins k i = true →
    ∃! m, n ≤ m ∧ m < k ∧ acceptsAt W ins m j i = true
  /-- A transfer is never accepted a second time. -/
  atMostOnce : ∀ n i j, Takes W ins n i j → ∀ k, InDataPhase W ins n i k → ∀ m m',
    n ≤ m → m < k → acceptsAt W ins m j i = true →
    n ≤ m' → m' < k → acceptsAt W ins m' j i = true → m = m'
  /-- A transfer that is not accepted yet still requests its slave. -/
  kept : ∀ n i j, Takes W ins n i j → ∀ k, InDataPhase W ins n i k →
    (∀ m, n ≤ m → m < k → acceptsAt W ins m j i = false) →
    ((run W ins k).arb j).actual ((run W ins k).arbIn W (ins k) j) i = (ins n).req i
  /-- The slave accepts the address phase of the transfer. -/
  request : ∀ n i j, Takes W ins n i j → ∀ k, InDataPhase W ins n i k → ∀ m, n ≤ m → m < k →
    acceptsAt W ins m j i = true → (run W ins m).dstReq W (ins m) j = (ins n).req i
  /-- From the acceptance on, slave and master see the same `HREADY`, so that both data phases end
  in the same cycle. -/
  dataPhase : ∀ n i j, Takes W ins n i j → ∀ k, InDataPhase W ins n i k → ∀ m, n ≤ m → m < k →
    acceptsAt W ins m j i = true → (ins k).hreadyResp j = readyAt W ins k i ∧
      (run W ins k).dstHready W (ins k) j = readyAt W ins k i
  /-- From the acceptance on, the slave sees the master's write data. -/
  hwdata : ∀ n i j, Takes W ins n i j → ∀ k, InDataPhase W ins n i k → ∀ m, n ≤ m → m < k →
    acceptsAt W ins m j i = true → (run W ins k).dstHwdata W (ins k) j = (ins k).hwdata i
  /-- Nothing else is accepted. -/
  noOther : ∀ m i j, acceptsAt W ins m j i = true →
    ∃ n ≤ m, Takes W ins n i j ∧ ∀ l, n < l → l ≤ m → readyAt W ins l i = false
  /-- No slave accepts an address phase that its master presents with `HREADY` low. -/
  notEarly : ∀ m i j, acceptsAt W ins m j i = true →
    ((run W ins m).arb j).bufValid i = false → readyAt W ins m i = true

/-- No cycle of the run has an overlap. -/
def NoOverlap (W : Wiring M N) (ins : ℕ → XbarIn M N) : Prop :=
  ∀ n i j, ¬ Overlap W (run W ins n) (ins n) i j

variable {ins}

theorem run_succ (n : ℕ) : run W ins (n + 1) = (run W ins n).step W (ins n) := rfl

/-- **Run lemma**: without overlaps the invariant holds in every cycle. -/
theorem inv_run (hno : NoOverlap W ins) (n : ℕ) : Inv W (run W ins n) :=
  trace_invariant (Inv W) (inv_reset W) (fun n h => h.step (hno n)) n

/-- Progress of a transfer by cycle `k`: it waits in the buffer and has not been accepted, or it
is served and has been accepted once. -/
def Progress (W : Wiring M N) (ins : ℕ → XbarIn M N) (n : ℕ) (i : Fin M) (j : Fin N)
    (k : ℕ) : Prop :=
  (((run W ins k).arb j).bufValid i = true ∧ ((run W ins k).arb j).buf i = (ins n).req i ∧
      ∀ m, n ≤ m → m < k → acceptsAt W ins m j i = false) ∨
    (((run W ins k).arb j).mastGntD i = true ∧
      ∃ m, n ≤ m ∧ m < k ∧ acceptsAt W ins m j i = true ∧
        (run W ins m).dstReq W (ins m) j = (ins n).req i ∧
        ∀ m', n ≤ m' → m' < k → acceptsAt W ins m' j i = true → m' = m)

/-- A buffered request belongs to a transfer whose data phase is under way. -/
theorem exists_origin (hno : NoOverlap W ins) {k : ℕ} {i : Fin M} {j : Fin N}
    (hb : ((run W ins k).arb j).bufValid i = true) :
    ∃ n, Takes W ins n i j ∧ InDataPhase W ins n i k := by
  induction k with
  | zero => cases hb
  | succ k ih =>
    rw [run_succ] at hb
    cases hr : (run W ins k).hready W (ins k) i with
    | true =>
      rw [(next_of_ready (inv_run hno k) hr j).2.1, Bool.and_eq_true] at hb
      exact ⟨k, ⟨hr, hb.1⟩, Nat.lt_succ_self k, fun l hl hl' => by omega⟩
    | false =>
      rw [(next_of_waiting (inv_run hno k) hr (hno k i j)).2.1, Bool.and_eq_true] at hb
      obtain ⟨n, ht, hnk, hlow⟩ := ih hb.1
      refine ⟨n, ht, by omega, fun l hl hl' => ?_⟩
      rcases Nat.lt_succ_iff_lt_or_eq.mp hl' with h | rfl
      · exact hlow l hl h
      · exact hr

/-- A transfer is accepted in its own cycle, or buffered. -/
theorem progress_succ_self (hno : NoOverlap W ins) {n : ℕ} {i : Fin M} {j : Fin N}
    (ht : Takes W ins n i j) : Progress W ins n i j (n + 1) := by
  have hinv := inv_run hno n
  obtain ⟨hg, hb, hreq⟩ := next_of_ready hinv ht.1 j
  have hempty : ((run W ins n).arb j).bufValid i = false := by
    rw [Bool.eq_false_iff]
    intro hb
    have hr := ht.1
    rw [readyAt, hready_of_wait hinv hb] at hr
    cases hr
  rw [Progress, run_succ, hg]
  cases ha : (run W ins n).accepts W (ins n) j i with
  | true =>
    right
    refine ⟨rfl, n, le_rfl, Nat.lt_succ_self n, ha, ?_, fun m' h h' _ => by omega⟩
    have hsel := ht.2
    rw [Live, Bool.and_eq_true] at hsel
    rw [dstReq_of_accepts ha, Arbiter.actual, hempty]
    exact splitReq_of_sel hsel.1
  | false =>
    left
    rw [ha, Bool.not_false, Bool.and_true, ht.2] at hb
    refine ⟨hb, hreq hb, fun m h h' => ?_⟩
    obtain rfl : m = n := by omega
    exact ha

/-- **Progress in one cycle**, while the master waits. -/
theorem Progress.next (hno : NoOverlap W ins) {n k : ℕ} {i : Fin M} {j : Fin N}
    (h : Progress W ins n i j k) (hnk : n ≤ k) (hr : readyAt W ins k i = false) :
    Progress W ins n i j (k + 1) := by
  have hinv := inv_run hno k
  obtain ⟨hg, hb, hbuf, hacc⟩ := next_of_waiting hinv hr (hno k i j)
  rw [Progress, run_succ, hg, hb, hbuf]
  rcases h with ⟨hv, hq, hnone⟩ | ⟨hs, m, hm, hmk, ha, hq, honly⟩
  · cases ha : (run W ins k).accepts W (ins k) j i with
    | true =>
      -- the buffered request is accepted now
      right
      refine ⟨by simp, k, hnk, Nat.lt_succ_self k, ha, ?_, fun m' h h' ha' => ?_⟩
      · rw [dstReq_of_accepts ha, Arbiter.actual, hv]
        exact hq
      · by_contra hne
        rw [hnone m' h (by omega)] at ha'
        cases ha'
    | false =>
      left
      refine ⟨by rw [hv]; rfl, hq, fun m h h' => ?_⟩
      rcases Nat.lt_succ_iff_lt_or_eq.mp h' with hlt | rfl
      · exact hnone m h hlt
      · exact ha
  · right
    have hna : (run W ins k).accepts W (ins k) j i = false := by
      rw [Bool.eq_false_iff]
      intro ha'
      have hgnt := (hinv.wait i j (hacc ha')).2.1
      rw [hs] at hgnt
      cases hgnt
    refine ⟨by rw [hs]; rfl, m, hm, Nat.lt_succ_of_lt hmk, ha, hq, fun m' h h' ha' => ?_⟩
    rcases Nat.lt_succ_iff_lt_or_eq.mp h' with hlt | rfl
    · exact honly m' h hlt ha'
    · rw [acceptsAt, hna] at ha'
      cases ha'

/-- **Progress lemma**, by induction on the length of the data phase. -/
theorem progress (hno : NoOverlap W ins) {n k : ℕ} {i : Fin M} {j : Fin N}
    (ht : Takes W ins n i j) (hd : InDataPhase W ins n i k) : Progress W ins n i j k := by
  obtain ⟨hnk, hlow⟩ := hd
  induction k, hnk using Nat.le_induction with
  | base => exact progress_succ_self hno ht
  | succ k hnk ih =>
    have hprogress := ih fun l hl hl' => hlow l hl (Nat.lt_succ_of_lt hl')
    exact hprogress.next hno (Nat.le_of_succ_le hnk) (hlow k hnk (Nat.lt_succ_self k))

/-- Once accepted, the transfer is served until its data phase ends. -/
theorem served_of_accepts (hno : NoOverlap W ins) {n k m : ℕ} {i : Fin M} {j : Fin N}
    (ht : Takes W ins n i j) (hd : InDataPhase W ins n i k) (hm : n ≤ m) (hmk : m < k)
    (ha : acceptsAt W ins m j i = true) : ((run W ins k).arb j).mastGntD i = true := by
  rcases progress hno ht hd with ⟨-, -, hnone⟩ | ⟨hs, -⟩
  · rw [hnone m hm hmk] at ha
    cases ha
  · exact hs

/-- Without overlaps delivery is exactly once. -/
theorem exactlyOnce_of_noOverlap (hno : NoOverlap W ins) : ExactlyOnce W ins where
  once n i j ht k hd hr := by
    rcases progress hno ht hd with ⟨hb, -, -⟩ | ⟨-, m, hm, hmk, ha, -, honly⟩
    · -- while the request is buffered, the master is not ready
      rw [readyAt, hready_of_wait (inv_run hno k) hb] at hr
      cases hr
    · exact ⟨m, ⟨hm, hmk, ha⟩, fun m' ⟨h, h', ha'⟩ => honly m' h h' ha'⟩
  atMostOnce n i j ht k hd m m' hm hmk ha hm' hmk' ha' := by
    rcases progress hno ht hd with ⟨-, -, hnone⟩ | ⟨-, m₀, -, -, -, -, honly⟩
    · rw [hnone m hm hmk] at ha
      cases ha
    · rw [honly m hm hmk ha, honly m' hm' hmk' ha']
  kept n i j ht k hd hnone := by
    rcases progress hno ht hd with ⟨hb, hq, -⟩ | ⟨-, m, hm, hmk, ha, -⟩
    · rw [Arbiter.actual, hb]
      exact hq
    · rw [hnone m hm hmk] at ha
      cases ha
  request n i j ht k hd m hm hmk ha := by
    rcases progress hno ht hd with ⟨-, -, hnone⟩ | ⟨-, m₀, -, -, -, hq, honly⟩
    · rw [hnone m hm hmk] at ha
      cases ha
    · rw [honly m hm hmk ha]
      exact hq
  dataPhase n i j ht k hd m hm hmk ha := by
    have hs := served_of_accepts hno ht hd hm hmk ha
    exact ⟨(hready_of_serve (inv_run hno k) hs).symm, dstHready_of_serve (inv_run hno k) hs⟩
  hwdata n i j ht k hd m hm hmk ha :=
    dstHwdata_of_serve (inv_run hno k) (served_of_accepts hno ht hd hm hmk ha)
  noOther m i j ha := by
    -- a buffered request came in a cycle before, any other one in this cycle
    cases hb : ((run W ins m).arb j).bufValid i with
    | true =>
      obtain ⟨n, ht, hnm, hlow⟩ := exists_origin hno hb
      refine ⟨n, hnm.le, ht, fun l hl hl' => ?_⟩
      rcases Nat.lt_or_eq_of_le hl' with h | rfl
      · exact hlow l hl h
      · exact hready_of_wait (inv_run hno l) hb
    | false =>
      have hr : readyAt W ins m i = true := by
        by_contra hr
        exact hno m i j (overlap_iff.mpr ⟨Bool.eq_false_iff.mpr hr, hb, ha⟩)
      exact ⟨m, le_rfl, ⟨hr, live_of_accepts hb ha⟩, fun l hl hl' => by omega⟩
  notEarly m i j ha hb := by
    by_contra hr
    exact hno m i j (overlap_iff.mpr ⟨Bool.eq_false_iff.mpr hr, hb, ha⟩)

/-- **Delivery is exactly once if and only if there is no overlap**, for every wiring. -/
theorem exactlyOnce_iff : ExactlyOnce W ins ↔ NoOverlap W ins := by
  refine ⟨fun h n i j ho => ?_, exactlyOnce_of_noOverlap⟩
  obtain ⟨hr, hb, ha⟩ := overlap_iff.mp ho
  have hr' := h.notEarly n i j ha hb
  rw [readyAt, hr] at hr'
  cases hr'

end Run

end Xbar

/-! ## The crossbar of the SoC -/

open Xbar

/-- **The SoC's crossbar** delivers every transfer of a run exactly once, with its own address
phase and write data, if and only if no cycle of the run has an overlap: a master whose `HREADY` is
low and that presents an address phase for a connected slave whose arbiter has a free address slot
for it. -/
theorem kwsSoc_exactlyOnce_iff (ins : ℕ → XbarIn 4 4) :
    ExactlyOnce kwsSoc ins ↔ NoOverlap kwsSoc ins :=
  exactlyOnce_iff

/-! ## A legal run with an overlap -/

/-- **Legal masters** hold address phase and write data while their `HREADY` is low. -/
def LegalMasters (ins : ℕ → XbarIn 4 4) : Prop :=
  ∀ n i, readyAt kwsSoc ins n i = false →
    (ins (n + 1)).req i = (ins n).req i ∧ (ins (n + 1)).hwdata i = (ins n).hwdata i

/-- **Legal slaves** are ready whenever they are in no data phase. -/
def LegalSlaves (ins : ℕ → XbarIn 4 4) : Prop :=
  ∀ n j, (ins n).hreadyResp j = false →
    anyBit ((run kwsSoc ins n).arb j).mastGntD = true

/-- The d-port reads SRAM, which stalls for one cycle, and then stores `0x42` to the APB bridge.
While the load is in its data phase the d-port still drives `0xD0` as write data. -/
def loadThenStore (n : ℕ) : XbarIn 4 4 where
  req i :=
    if i ≠ 1 then .zero
    else if n = 0 then { Req.zero with haddr := 0x0, htrans := 0b10, hsize := 0b010 }
    else if n < 3 then
      { Req.zero with haddr := 0x4000400c, hwrite := true, htrans := 0b10, hsize := 0b010 }
    else .zero
  hwdata i := if i ≠ 1 then 0 else if n < 3 then 0xD0 else 0x42
  hreadyResp j := !(decide (j = 0) && decide (n = 1))
  hresp _ := false
  hrdata _ := 0

/-- The bridge accepts the store twice, in cycles 1 and 2, and ends a data phase for it in cycle 2
with the data `0xD0`, one cycle before the d-port drives `0x42`. -/
theorem overlap_write :
    LegalMasters loadThenStore ∧ LegalSlaves loadThenStore ∧
      ¬ ExactlyOnce kwsSoc loadThenStore ∧ Takes kwsSoc loadThenStore 2 1 1 ∧
      acceptsAt kwsSoc loadThenStore 1 1 1 = true ∧ acceptsAt kwsSoc loadThenStore 2 1 1 = true ∧
      (run kwsSoc loadThenStore 2).dstHwdata kwsSoc (loadThenStore 2) 1 = 0xD0 ∧
      (loadThenStore 2).hreadyResp 1 = true ∧ (loadThenStore 3).hwdata 1 = 0x42 := by
  have hearly : readyAt kwsSoc loadThenStore 1 1 = false := by decide +kernel
  refine ⟨fun n i hr => ?_, fun n j hn => ?_, fun h => ?_, ?_, ?_, ?_, ?_, ?_, ?_⟩
  · by_cases hi : i = 1
    · subst hi
      match n with
      | 0 => exact absurd hr (by decide +kernel)
      | 1 => exact ⟨rfl, rfl⟩
      | 2 => exact absurd hr (by decide +kernel)
      | n + 3 => exact ⟨rfl, rfl⟩
    · simp [loadThenStore, hi]
  · obtain ⟨rfl, rfl⟩ : j = 0 ∧ n = 1 := by simpa [loadThenStore] using hn
    decide +kernel
  · have := h.notEarly 1 1 1 (by decide +kernel) (by decide +kernel)
    rw [hearly] at this
    cases this
  · exact ⟨by decide +kernel, by decide +kernel⟩
  all_goals decide +kernel

end KwsSoc.Bus
