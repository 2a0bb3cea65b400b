import KwsSoc.Bus.Delivery

/-! # Transfers to addresses that no slave answers

The splitter selects a slave with the connected address ranges (`slaveSelA`), but raises its decode
error with all of them (`slaveSelANomask`). So a transfer to an unmapped address gets the two-cycle
`ERROR` response, and one to a range whose slave is not connected to the master an `OKAY` without
wait states: `faultsRightly_iff` and, for the two crossbars of the SoC, `kwsSoc_faultsRightly_iff`.
In both cases no slave sees it. `fetch_from_peripheral` is an instruction fetch from the peripheral
range. -/

namespace KwsSoc.Bus

open SyncMachine

namespace Wiring

variable {M N : ℕ} (W : Wiring M N)

/-- The address is in the range of slave `j`. -/
def InRange (a : BitVec 32) (j : Fin N) : Prop := (a ^^^ W.addrMap j) &&& W.addrMask j = 0

/-- The address is in the range of some slave. -/
def Mapped (a : BitVec 32) : Prop := ∃ j, W.InRange a j

/-- A slave that is connected to master `i` answers the address. -/
def Reaches (i : Fin M) (a : BitVec 32) : Prop := ∃ j, W.connMatrix i j = true ∧ W.InRange a j

instance (a : BitVec 32) (j : Fin N) : Decidable (W.InRange a j) :=
  inferInstanceAs (Decidable (_ = _))

instance (a : BitVec 32) : Decidable (W.Mapped a) := inferInstanceAs (Decidable (∃ _, _))

instance (i : Fin M) (a : BitVec 32) : Decidable (W.Reaches i a) :=
  inferInstanceAs (Decidable (∃ _, _))

variable {W} {r : Req} {i : Fin M} {j : Fin N}

/-- An active transfer is not `IDLE`. -/
theorem htrans_of_active (h : r.active = true) : (r.htrans != 0#2) = true := by
  rw [bne_iff_ne]
  intro hz
  rw [Req.active, hz] at h
  cases h

theorem slaveSelA_iff (h : r.active = true) :
    W.slaveSelA i r j = true ↔ W.connMatrix i j = true ∧ W.InRange r.haddr j := by
  rw [slaveSelA, slaveSelANomask, htrans_of_active h, InRange]
  simp [and_comm]

theorem decodeErrA_iff (h : r.active = true) : W.decodeErrA r = true ↔ ¬ W.Mapped r.haddr := by
  rw [decodeErrA, htrans_of_active h, Bool.true_and, Bool.not_eq_true', Bool.eq_false_iff, Mapped]
  refine not_congr (anyBit_iff.trans (exists_congr fun j => ?_))
  rw [slaveSelANomask, htrans_of_active h, InRange]
  simp

end Wiring

namespace Xbar

variable {M N : ℕ} (W : Wiring M N)

/-! ## What a transfer gets -/

section Spec

variable (ins : ℕ → XbarIn M N)

/-- `HRESP` of master `i` in cycle `n`. -/
def respAt (n : ℕ) (i : Fin M) : Bool := (run W ins n).hresp W (ins n) i

/-- Master `i` ends an active address phase in cycle `n`. -/
def Accepted (n : ℕ) (i : Fin M) : Prop :=
  readyAt W ins n i = true ∧ ((ins n).req i).active = true

/-- The two-cycle `ERROR` response to what was accepted in cycle `n`. -/
structure ErrorResponse (n : ℕ) (i : Fin M) : Prop where
  first : readyAt W ins (n + 1) i = false ∧ respAt W ins (n + 1) i = true
  second : readyAt W ins (n + 2) i = true ∧ respAt W ins (n + 2) i = true

/-- **No slave sees** the address phase that master `i` presents: what is passed to the arbiters is
idle, a slave that grants the master sees an earlier buffered phase, and no buffer takes an active
one. -/
structure Unseen (s : Xbar M N) (x : XbarIn M N) (i : Fin M) : Prop where
  passed : ∀ j, (splitReq W x i j).active = false
  seen : ∀ j, s.gntA W x j i = true → (s.arb j).bufValid i = true
  stored : ∀ j, ((s.step W x).arb j).buf i = (s.arb j).buf i ∨
    (((s.step W x).arb j).buf i).active = false

/-- **Right faults** for what master `i` has accepted in cycle `n`: at an address it does not reach,
the `ERROR` response, and no slave sees it in any cycle it is presented; at one it reaches, no
decode error, so that an error response in its data phase is one of the slave. -/
structure FaultsRightly (n : ℕ) (i : Fin M) : Prop where
  fault : ¬ W.Reaches i ((ins n).req i).haddr → ErrorResponse W ins n i
  unseen : ¬ W.Reaches i ((ins n).req i).haddr →
    ∀ m, (ins m).req i = (ins n).req i → Unseen W (run W ins m) (ins m) i
  clean : W.Reaches i ((ins n).req i).haddr → ∀ k, InDataPhase W ins n i k →
    ((run W ins k).split i).decodeErrD = false ∧ (respAt W ins k i = true →
      ∃ j, W.connMatrix i j = true ∧ W.InRange ((ins n).req i).haddr j ∧ (ins k).hresp j = true)

end Spec

/-! ## Hidden address phases -/

section Cycle

variable {W} {s : Xbar M N} {x : XbarIn M N} {i : Fin M}

/-- A port that is not selected passes an idle phase. -/
theorem splitReq_idle {j : Fin N} (h : W.slaveSelA i (x.req i) j = false) :
    (splitReq W x i j).active = false := by
  rw [splitReq]
  split
  · simp [Req.active, h]
  · rfl

/-- An address that the master does not reach is hidden from the slaves. -/
theorem unseen_of_not_reaches (ha : (x.req i).active = true)
    (h : ¬ W.Reaches i (x.req i).haddr) : Unseen W s x i := by
  have hpassed : ∀ j, (splitReq W x i j).active = false := fun j => by
    apply splitReq_idle
    rw [Bool.eq_false_iff]
    exact fun hsel => h ⟨j, (Wiring.slaveSelA_iff ha).mp hsel⟩
  refine ⟨hpassed, fun j hg => ?_, fun j => ?_⟩
  · by_contra hb
    have hreq := (gntA_iff.mp hg).1
    rw [Arbiter.mastReqA, Arbiter.actual, if_neg hb, Bool.and_eq_true] at hreq
    have := hpassed j
    rw [show splitReq W x i j = (s.arbIn W x j).src i from rfl, hreq.1] at this
    cases this
  · change (if (s.arb j).bufWen _ _ i then splitReq W x i j else (s.arb j).buf i) = _ ∨
      (if (s.arb j).bufWen _ _ i then splitReq W x i j else (s.arb j).buf i).active = false
    split
    · exact Or.inr (hpassed j)
    · exact Or.inl rfl

/-- **Invariant of a splitter**: a decode error selects no slave, and the second cycle of an error
response belongs to a decode error. -/
structure SplitInv (p : Splitter N) : Prop where
  unselected : p.decodeErrD = true → anyBit p.slaveSelD = false
  phase : p.errPh1 = true → p.decodeErrD = true

/-- A decode error selects no slave in the address phase either. -/
theorem slaveSelA_of_decodeErrA {r : Req} (h : W.decodeErrA r = true) :
    anyBit (W.slaveSelA i r) = false := by
  rw [Bool.eq_false_iff]
  intro hany
  obtain ⟨j, hj⟩ := anyBit_iff.mp hany
  rw [Wiring.slaveSelA, Bool.and_eq_true] at hj
  rw [Wiring.decodeErrA, Bool.and_eq_true, Bool.not_eq_true', Bool.eq_false_iff] at h
  exact h.2 (anyBit_iff.mpr ⟨j, hj.1⟩)

/-- Without a selected slave the splitter answers alone. -/
theorem srcResp_of_unselected {p : Splitter N} (h : anyBit p.slaveSelD = false) (f : Fin N → Bool) :
    p.srcHreadyResp f = (p.errPh1 || !p.decodeErrD) ∧ p.srcHresp f = p.decodeErrD := by
  have hnone : (anyBit fun j => p.slaveSelD j && f j) = false := by
    rw [Bool.eq_false_iff] at h ⊢
    intro hany
    obtain ⟨j, hj⟩ := anyBit_iff.mp hany
    rw [Bool.and_eq_true] at hj
    exact h (anyBit_iff.mpr ⟨j, hj.1⟩)
  rw [Splitter.srcHreadyResp, Splitter.srcHresp, h, hnone]
  simp

/-- During a decode error a master is ready in the second cycle only. -/
theorem hready_of_decodeErrD (h : SplitInv (s.split i)) (hd : (s.split i).decodeErrD = true) :
    s.hready W x i = (s.split i).errPh1 := by
  rw [hready, (srcResp_of_unselected (h.unselected hd) _).1, hd, Bool.not_true, Bool.or_false]

/-- **Step lemma.** -/
theorem SplitInv.step (h : SplitInv (s.split i)) : SplitInv ((s.step W x).split i) := by
  refine ⟨fun hd => ?_, fun hp => ?_⟩
  · change (if s.hready W x i then W.decodeErrA (x.req i) else (s.split i).decodeErrD) = true at hd
    change anyBit (if s.hready W x i then W.slaveSelA i (x.req i) else (s.split i).slaveSelD) = _
    cases hr : s.hready W x i with
    | true =>
      rw [hr] at hd
      exact slaveSelA_of_decodeErrA hd
    | false =>
      rw [hr] at hd
      exact h.unselected hd
  · -- the phase was low, so the master is waiting and the decode error stays
    change (if (s.split i).decodeErrD then !(s.split i).errPh1 else false) = true at hp
    change (if s.hready W x i then W.decodeErrA (x.req i) else (s.split i).decodeErrD) = true
    cases hd : (s.split i).decodeErrD with
    | false =>
      rw [hd] at hp
      cases hp
    | true =>
      rw [hd, if_pos rfl, Bool.not_eq_true'] at hp
      rw [hready_of_decodeErrD h hd, hp]
      rfl

/-- What is accepted begins its data phase in the first cycle of a response. -/
theorem errPh1_of_ready (h : SplitInv (s.split i)) (hr : s.hready W x i = true) :
    ((s.step W x).split i).errPh1 = false := by
  change (if (s.split i).decodeErrD then !(s.split i).errPh1 else false) = false
  cases hd : (s.split i).decodeErrD with
  | false => rfl
  | true =>
    rw [hready_of_decodeErrD h hd] at hr
    rw [hr]
    rfl

end Cycle

/-! ## Runs -/

section Run

variable {W} {ins : ℕ → XbarIn M N} {n : ℕ} {i : Fin M}

theorem splitInv_run (W : Wiring M N) (ins : ℕ → XbarIn M N) (n : ℕ) (i : Fin M) :
    SplitInv ((run W ins n).split i) :=
  trace_invariant (fun s : Xbar M N => SplitInv (s.split i))
    ⟨by simp [reset, Splitter.reset], by simp [reset, Splitter.reset]⟩ (fun _ h => h.step) n

/-- **An unmapped address** gets the two-cycle `ERROR` response. -/
theorem errorResponse_of_not_mapped (ha : Accepted W ins n i)
    (h : ¬ W.Mapped ((ins n).req i).haddr) : ErrorResponse W ins n i := by
  have hd : ((run W ins (n + 1)).split i).decodeErrD = true := by
    change (if (run W ins n).hready W (ins n) i then _ else _) = true
    rw [show (run W ins n).hready W (ins n) i = true from ha.1]
    exact (Wiring.decodeErrA_iff ha.2).mpr h
  have hp : ((run W ins (n + 1)).split i).errPh1 = false :=
    errPh1_of_ready (splitInv_run W ins n i) ha.1
  have hinv := splitInv_run W ins (n + 1) i
  have hr : (run W ins (n + 1)).hready W (ins (n + 1)) i = false := by
    rw [hready_of_decodeErrD hinv hd, hp]
  -- the master waits, so the decode error stays for the second cycle
  have hd' : ((run W ins (n + 2)).split i).decodeErrD = true := by
    change (if (run W ins (n + 1)).hready W (ins (n + 1)) i then _ else _) = true
    rw [hr]
    exact hd
  have hp' : ((run W ins (n + 2)).split i).errPh1 = true := by
    change (if ((run W ins (n + 1)).split i).decodeErrD then
      !((run W ins (n + 1)).split i).errPh1 else false) = true
    rw [hd, hp]
    rfl
  have hinv' := splitInv_run W ins (n + 2) i
  refine ⟨⟨hr, ?_⟩, (hready_of_decodeErrD hinv' hd').trans hp', ?_⟩
  · rw [respAt, hresp, (srcResp_of_unselected (hinv.unselected hd) _).2, hd]
  · rw [respAt, hresp, (srcResp_of_unselected (hinv'.unselected hd') _).2, hd']

/-- **A mapped address that the master does not reach** gets an `OKAY` without wait states. -/
theorem okay_of_mapped (ha : Accepted W ins n i) (hm : W.Mapped ((ins n).req i).haddr)
    (h : ¬ W.Reaches i ((ins n).req i).haddr) :
    readyAt W ins (n + 1) i = true ∧ respAt W ins (n + 1) i = false := by
  have hd : ((run W ins (n + 1)).split i).decodeErrD = false := by
    change (if (run W ins n).hready W (ins n) i then _ else _) = false
    rw [show (run W ins n).hready W (ins n) i = true from ha.1, Bool.eq_false_iff]
    exact fun he => (Wiring.decodeErrA_iff ha.2).mp he hm
  have hu : anyBit ((run W ins (n + 1)).split i).slaveSelD = false := by
    change anyBit (if (run W ins n).hready W (ins n) i then _ else _) = false
    rw [show (run W ins n).hready W (ins n) i = true from ha.1, Bool.eq_false_iff]
    intro hany
    obtain ⟨j, hj⟩ := anyBit_iff.mp hany
    exact h ⟨j, (Wiring.slaveSelA_iff ha.2).mp hj⟩
  refine ⟨?_, ?_⟩
  · rw [readyAt, hready, (srcResp_of_unselected hu _).1, hd, Bool.not_false, Bool.or_true]
  · rw [respAt, hresp, (srcResp_of_unselected hu _).2, hd]

/-- The selections of an accepted transfer stay for its data phase. -/
theorem select_of_dataPhase (ha : readyAt W ins n i = true) {k : ℕ}
    (hk : InDataPhase W ins n i k) :
    ((run W ins k).split i).slaveSelD = W.slaveSelA i ((ins n).req i) ∧
      ((run W ins k).split i).decodeErrD = W.decodeErrA ((ins n).req i) := by
  obtain ⟨hlt, hlow⟩ := hk
  obtain ⟨d, rfl⟩ := Nat.exists_eq_add_of_lt hlt
  clear hlt
  induction d with
  | zero =>
    change (if readyAt W ins n i then _ else _) = _ ∧ (if readyAt W ins n i then _ else _) = _
    rw [ha]
    exact ⟨rfl, rfl⟩
  | succ d ih =>
    have hr : readyAt W ins (n + d + 1) i = false := hlow _ (by omega) (by omega)
    change (if readyAt W ins (n + d + 1) i then _ else _) = _ ∧
      (if readyAt W ins (n + d + 1) i then _ else _) = _
    rw [hr]
    exact ih (fun l hl hl' => hlow l hl (by omega))

/-- **A reached address** never gets a decode error: an error response is the slave's. -/
theorem clean_of_reaches (ha : Accepted W ins n i) (h : W.Reaches i ((ins n).req i).haddr) {k : ℕ}
    (hk : InDataPhase W ins n i k) :
    ((run W ins k).split i).decodeErrD = false ∧ (respAt W ins k i = true →
      ∃ j, W.connMatrix i j = true ∧ W.InRange ((ins n).req i).haddr j ∧
        (ins k).hresp j = true) := by
  obtain ⟨hsel, herr⟩ := select_of_dataPhase ha.1 hk
  have hd : ((run W ins k).split i).decodeErrD = false := by
    obtain ⟨j, -, hj⟩ := h
    rw [herr, Bool.eq_false_iff]
    exact fun he => (Wiring.decodeErrA_iff ha.2).mp he ⟨j, hj⟩
  refine ⟨hd, fun he => ?_⟩
  rw [respAt, hresp, Splitter.srcHresp, hd, Bool.false_or, hsel] at he
  obtain ⟨j, hj⟩ := anyBit_iff.mp he
  rw [Bool.and_eq_true] at hj
  obtain ⟨hc, hrange⟩ := (Wiring.slaveSelA_iff ha.2).mp hj.1
  have hslave := hj.2
  rw [if_pos hc, Arbiter.srcHresp, Bool.and_eq_true] at hslave
  exact ⟨j, hc, hrange, hslave.2⟩

/-- **Right faults, exactly**: for every wiring, run and master, what is accepted is answered
rightly if and only if its address is in no range or the master is connected to the slave. -/
theorem faultsRightly_iff (ha : Accepted W ins n i) : FaultsRightly W ins n i ↔
    ¬ W.Mapped ((ins n).req i).haddr ∨ W.Reaches i ((ins n).req i).haddr := by
  constructor
  · intro h
    by_contra hno
    rw [not_or, not_not] at hno
    have hfirst := (h.fault hno.2).first
    rw [(okay_of_mapped ha hno.1 hno.2).1] at hfirst
    cases hfirst.1
  · intro h
    refine ⟨fun hu => ?_, fun hu m hm => ?_, fun hr k hk => clean_of_reaches ha hr hk⟩
    · exact errorResponse_of_not_mapped ha (h.resolve_right hu)
    · rw [← hm] at hu
      exact unseen_of_not_reaches (by rw [hm]; exact ha.2) hu

end Run

end Xbar

/-! ## The crossbars of the SoC -/

open Xbar

/-- **The SoC's crossbars**, with and without the sample player: a transfer is answered rightly if
and only if its address is in no slave's range, or in the range of a slave connected to the
master. -/
theorem kwsSoc_faultsRightly_iff (ins : ℕ → XbarIn 4 4) (ins' : ℕ → XbarIn 5 4) (n : ℕ) (i : Fin 4)
    (i' : Fin 5) :
    (Accepted kwsSoc ins n i →
      (FaultsRightly kwsSoc ins n i ↔
        ¬ kwsSoc.Mapped ((ins n).req i).haddr ∨ kwsSoc.Reaches i ((ins n).req i).haddr)) ∧
      (Accepted kwsSocPlayback ins' n i' →
        (FaultsRightly kwsSocPlayback ins' n i' ↔
          ¬ kwsSocPlayback.Mapped ((ins' n).req i').haddr ∨
            kwsSocPlayback.Reaches i' ((ins' n).req i').haddr)) :=
  ⟨faultsRightly_iff, faultsRightly_iff⟩

/-- One master reads an address in cycle 0; the slaves are always ready. -/
def readOnce (i₀ : Fin 4) (a : BitVec 32) (n : ℕ) : XbarIn 4 4 where
  req i := if i = i₀ ∧ n = 0 then { Req.zero with haddr := a, htrans := 0b10, hsize := 0b010 }
    else .zero
  hwdata _ := 0
  hreadyResp _ := true
  hresp _ := false
  hrdata _ := 0

/-- No transfers. -/
def quiet (M N : ℕ) (_ : ℕ) : XbarIn M N where
  req _ := .zero
  hwdata _ := 0
  hreadyResp _ := true
  hresp _ := false
  hrdata _ := 0

/-- The i-port reads the unmapped address `0x20000000`. -/
theorem kwsSoc_faultsRightly_iff_unmapped :
    FaultsRightly kwsSoc (readOnce 0 0x20000000) 0 0 :=
  ((kwsSoc_faultsRightly_iff (readOnce 0 0x20000000) (quiet 5 4) 0 0 0).1
    ⟨by decide +kernel, by decide⟩).mpr (Or.inl (by decide))

/-- **An instruction fetch from the peripheral range**, which the i-port is not connected to: the
fetch is accepted and answered with `OKAY` and the word 0 in the next cycle. -/
theorem fetch_from_peripheral :
    let ins := readOnce 0 0x40000000
    Accepted kwsSoc ins 0 0 ∧ ¬ kwsSoc.Reaches 0 ((ins 0).req 0).haddr ∧
      ¬ FaultsRightly kwsSoc ins 0 0 ∧ readyAt kwsSoc ins 1 0 = true ∧
      respAt kwsSoc ins 1 0 = false ∧ (run kwsSoc ins 1).hrdata kwsSoc (ins 1) 0 = 0 := by
  intro ins
  have hr : readyAt kwsSoc ins 1 0 = true := by decide +kernel
  have hu : ¬ kwsSoc.Reaches 0 ((ins 0).req 0).haddr := by decide
  refine ⟨⟨by decide +kernel, by decide⟩, hu, fun h => ?_, hr, by decide +kernel, by decide +kernel⟩
  have hfirst := (h.fault hu).first.1
  rw [hr] at hfirst
  cases hfirst

end KwsSoc.Bus
