import KwsSoc.Lib.SyncMachine

/-! # The AHB-to-APB bridge

A model of `busfabric/ahbl_to_apb.v` (`ApbBridge`) and what it does with the transfers presented to
it. `Carried` describes the life of one accepted transfer, cycle by cycle: the cycle in which write
data are sampled, the setup cycle, the access phase for as long as the peripheral waits, and the
response, `OKAY` or the two-cycle `ERROR`. `bridge_carries` shows that every accepted transfer is
carried, that no APB access has another origin, and that a transfer is accepted only after the
access of the one before has ended. The only assumption is how `hready` is wired (`Tied`).

`hsize`, `hburst`, `hprot` and `hmastlock` are not read by the bridge and are left out. -/

namespace KwsSoc.Bus

open SyncMachine

/-! ## The bridge -/

/-- States of the transfer state machine (`S_READY` … `S_ERR1`). -/
inductive ApbState
  | ready | rd0 | rd1 | wr0 | wr1 | wr2 | err0 | err1
  deriving DecidableEq, Repr

/-- What the AHB side and the peripheral drive in one cycle. -/
structure ApbBridgeIn where
  haddr : BitVec 32
  hwrite : Bool
  htrans : BitVec 2
  hwdata : BitVec 32
  hready : Bool
  pready : Bool
  prdata : BitVec 32
  pslverr : Bool

/-- An address phase of a transfer, accepted in this cycle. -/
def ApbBridgeIn.accept (x : ApbBridgeIn) : Bool := x.htrans.getLsbD 1 && x.hready

/-- Registers of the bridge. -/
structure ApbBridge where
  apbState : ApbState
  hreadyResp : Bool
  hresp : Bool
  hrdata : BitVec 32
  paddr : BitVec 16
  pwdata : BitVec 32

namespace ApbBridge

/-- Reset, with `FULL_RESET`. -/
def reset : ApbBridge := ⟨.ready, true, false, 0, 0, 0⟩

/-- `aphase_to_dphase`: the state in which the data phase of the presented transfer begins. -/
def aphaseToDphase (x : ApbBridgeIn) : ApbState :=
  if x.htrans.getLsbD 1 then if x.hwrite then .wr0 else .rd0 else .ready

theorem aphaseToDphase_idle {x : ApbBridgeIn} (h : x.htrans.getLsbD 1 = false) :
    aphaseToDphase x = .ready := by
  rw [aphaseToDphase, h]
  rfl

theorem aphaseToDphase_active {x : ApbBridgeIn} (h : x.htrans.getLsbD 1 = true) :
    aphaseToDphase x = if x.hwrite then .wr0 else .rd0 := by
  rw [aphaseToDphase, h]
  rfl

/-- `apb_state_nxt`. -/
def apbStateNxt (s : ApbBridge) (x : ApbBridgeIn) : ApbState :=
  match s.apbState with
  | .ready => if x.hready then aphaseToDphase x else .ready
  | .wr0 => .wr1
  | .wr1 => .wr2
  | .wr2 => if x.pready then if x.pslverr then .err0 else .ready else .wr2
  | .rd0 => .rd1
  | .rd1 => if x.pready then if x.pslverr then .err0 else .ready else .rd1
  | .err0 => .err1
  | .err1 => aphaseToDphase x

/-- One clock edge. -/
def step (s : ApbBridge) (x : ApbBridgeIn) : ApbBridge where
  apbState := s.apbStateNxt x
  hreadyResp := s.apbStateNxt x == .ready || s.apbStateNxt x == .err1
  hresp := s.apbStateNxt x == .err0 || s.apbStateNxt x == .err1
  hrdata := if s.apbState == .rd1 && x.pready then x.prdata else s.hrdata
  paddr := if x.accept then x.haddr.setWidth 16 else s.paddr
  pwdata := if s.apbState == .wr0 then x.hwdata else s.pwdata

/-- `apbm_psel`. -/
def psel (s : ApbBridge) : Bool :=
  match s.apbState with
  | .rd0 | .rd1 | .wr1 | .wr2 => true
  | _ => false

/-- `apbm_penable`. -/
def penable (s : ApbBridge) : Bool :=
  match s.apbState with
  | .rd1 | .wr2 => true
  | _ => false

/-- `apbm_pwrite`. -/
def pwrite (s : ApbBridge) : Bool :=
  match s.apbState with
  | .wr1 | .wr2 => true
  | _ => false

/-! ## The life of a transfer -/

section Spec

variable (i : ℕ → ApbBridgeIn)

/-- Whether a cycle belongs to the data phase of an accepted transfer: the phase begins after the
address phase has been accepted and ends with the first cycle in which `hready` is high. -/
def dataPhase : ℕ → Bool
  | 0 => false
  | n + 1 => if (i n).hready then (i n).htrans.getLsbD 1 else dataPhase n

/-- The bridge in cycle `n` of a run from reset. -/
def run (n : ℕ) : ApbBridge := trace step reset i n

/-- **The wiring of `hready`**: in a data phase the bridge sees its own `hready_resp`. -/
def Tied : Prop := ∀ n, dataPhase i n = true → (i n).hready = (run i n).hreadyResp

/-- The setup cycle of the transfer accepted in cycle `n`; a write samples its data before. -/
def setupCycle (n : ℕ) : ℕ := if (i n).hwrite then n + 2 else n + 1

/-- In the first `j` cycles of the access phase the peripheral is not ready. -/
def Waiting (n j : ℕ) : Prop := ∀ l < j, (i (setupCycle i n + 1 + l)).pready = false

/-- In cycle `m` the bridge drives the APB access of the transfer accepted in cycle `n`, and stalls
the transfer's data phase. The write data are those of the first cycle of the data phase. -/
structure Drives (n : ℕ) (enable : Bool) (m : ℕ) : Prop where
  psel : (run i m).psel = true
  penable : (run i m).penable = enable
  paddr : (run i m).paddr = (i n).haddr.setWidth 16
  pwrite : (run i m).pwrite = (i n).hwrite
  pwdata : (i n).hwrite = true → (run i m).pwdata = (i (n + 1)).hwdata
  hreadyResp : (run i m).hreadyResp = false
  hresp : (run i m).hresp = false

/-- In cycle `m` no APB access is driven, and the response to the AHB is as given. -/
structure Responds (hready hresp : Bool) (m : ℕ) : Prop where
  psel : (run i m).psel = false
  hreadyResp : (run i m).hreadyResp = hready
  hresp : (run i m).hresp = hresp

/-- **The transfer accepted in cycle `n` is carried**: one setup cycle, an access phase held until
`pready`, and only then the end of the data phase, with the sampled read data or, exactly when
`pslverr` was set, with the two-cycle `ERROR` response. -/
structure Carried (n : ℕ) : Prop where
  sample : (i n).hwrite = true → Responds i false false (n + 1)
  setup : Drives i n false (setupCycle i n)
  access : ∀ j, Waiting i n j → Drives i n true (setupCycle i n + 1 + j)
  okay : ∀ j, Waiting i n j → (i (setupCycle i n + 1 + j)).pready = true →
    (i (setupCycle i n + 1 + j)).pslverr = false →
      Responds i true false (setupCycle i n + 1 + j + 1) ∧ ((i n).hwrite = false →
        (run i (setupCycle i n + 1 + j + 1)).hrdata = (i (setupCycle i n + 1 + j)).prdata)
  error : ∀ j, Waiting i n j → (i (setupCycle i n + 1 + j)).pready = true →
    (i (setupCycle i n + 1 + j)).pslverr = true →
      Responds i false true (setupCycle i n + 1 + j + 1) ∧
        Responds i true true (setupCycle i n + 1 + j + 2)

end Spec

/-! ## Every cycle -/

section Cycle

variable {i : ℕ → ApbBridgeIn}

theorem run_succ (i : ℕ → ApbBridgeIn) (n : ℕ) : run i (n + 1) = (run i n).step (i n) := rfl

/-- **Invariant**: the registered response follows the state, and outside data phases the bridge is
in `S_READY`. -/
structure Inv (s : ApbBridge) (dphase : Bool) : Prop where
  hreadyResp : s.hreadyResp = (s.apbState == .ready || s.apbState == .err1)
  hresp : s.hresp = (s.apbState == .err0 || s.apbState == .err1)
  idle : dphase = false → s.apbState = .ready

theorem Inv.accepting {s : ApbBridge} {x : ApbBridgeIn} {dphase : Bool} (h : Inv s dphase)
    (ht : dphase = true → x.hready = s.hreadyResp) (hx : x.hready = true) :
    s.apbState = .ready ∨ s.apbState = .err1 := by
  cases dphase with
  | false => exact Or.inl (h.idle rfl)
  | true =>
    have hr := (ht rfl).symm.trans hx
    rw [h.hreadyResp] at hr
    simpa using hr

/-- **Step lemma.** -/
theorem Inv.step {s : ApbBridge} {x : ApbBridgeIn} {dphase : Bool} (h : Inv s dphase)
    (ht : dphase = true → x.hready = s.hreadyResp) :
    Inv (s.step x) (if x.hready then x.htrans.getLsbD 1 else dphase) := by
  refine ⟨rfl, rfl, fun hd => ?_⟩
  change s.apbStateNxt x = .ready
  cases hx : x.hready with
  | true =>
    rw [hx, if_pos rfl] at hd
    rcases h.accepting ht hx with hs | hs <;> simp [apbStateNxt, hs, hx, aphaseToDphase_idle hd]
  | false =>
    rw [hx, if_neg Bool.false_ne_true] at hd
    simp [apbStateNxt, h.idle hd, hx]

/-- **Run lemma.** -/
theorem inv_run (ht : Tied i) (n : ℕ) : Inv (run i n) (dataPhase i n) := by
  induction n with
  | zero => exact ⟨rfl, rfl, fun _ => rfl⟩
  | succ n ih => exact ih.step (ht n)

/-- While the bridge stalls, `hready` is low. -/
theorem hready_of_stall (ht : Tied i) {n : ℕ} (h : (run i n).hreadyResp = false) :
    (i n).hready = false := by
  cases hx : (i n).hready with
  | false => rfl
  | true =>
    have hs := (inv_run ht n).accepting (ht n) hx
    rw [(inv_run ht n).hreadyResp] at h
    rcases hs with hs | hs <;> simp [hs] at h

/-- A transfer that is accepted begins its data phase in the next cycle. -/
theorem run_of_accept (ht : Tied i) {n : ℕ} (ha : (i n).accept = true) :
    (run i (n + 1)).apbState = (if (i n).hwrite then .wr0 else .rd0) ∧
      (run i (n + 1)).paddr = (i n).haddr.setWidth 16 := by
  obtain ⟨htr, hx⟩ := Bool.and_eq_true _ _ ▸ ha
  refine ⟨?_, if_pos ha⟩
  change (run i n).apbStateNxt (i n) = _
  rcases (inv_run ht n).accepting (ht n) hx with hs | hs <;>
    simp [apbStateNxt, hs, hx, aphaseToDphase_active htr]

/-- Edges of a stalled cycle keep the address, and after `S_WR0` the write data. -/
theorem paddr_of_stall (ht : Tied i) {n : ℕ} (h : (run i n).hreadyResp = false) :
    (run i (n + 1)).paddr = (run i n).paddr := by
  rw [run_succ]
  exact if_neg (by simp [ApbBridgeIn.accept, hready_of_stall ht h])

theorem pwdata_step {s : ApbBridge} (x : ApbBridgeIn) (h : s.apbState ≠ .wr0) :
    (s.step x).pwdata = s.pwdata := if_neg (by simpa using h)

end Cycle

/-! ## From acceptance to response -/

section Life

variable {i : ℕ → ApbBridgeIn} {n m : ℕ}

/-- The states of the setup and of the access phase of a transfer. -/
def setupState (x : ApbBridgeIn) : ApbState := if x.hwrite then .wr1 else .rd0

def accessState (x : ApbBridgeIn) : ApbState := if x.hwrite then .wr2 else .rd1

/-- In cycle `m` the bridge is in state `st` with the address, and once they are sampled the write
data, of the transfer accepted in cycle `n`. -/
structure At (i : ℕ → ApbBridgeIn) (n : ℕ) (st : ApbState) (m : ℕ) : Prop where
  state : (run i m).apbState = st
  paddr : (run i m).paddr = (i n).haddr.setWidth 16
  pwdata : (i n).hwrite = true → (run i m).pwdata = (i (n + 1)).hwdata

/-- The outputs in the setup and access states. -/
theorem At.drives_setup (ht : Tied i) (h : At i n (setupState (i n)) m) : Drives i n false m := by
  have hs := h.state
  have hr := (inv_run ht m).hreadyResp
  have he := (inv_run ht m).hresp
  cases hw : (i n).hwrite <;> simp only [setupState, hw] at hs <;> simp [hs] at hr he
  all_goals exact ⟨by simp [ApbBridge.psel, hs], by simp [ApbBridge.penable, hs], h.paddr,
    by simp [ApbBridge.pwrite, hs, hw], h.pwdata, hr, he⟩

theorem At.drives_access (ht : Tied i) (h : At i n (accessState (i n)) m) : Drives i n true m := by
  have hs := h.state
  have hr := (inv_run ht m).hreadyResp
  have he := (inv_run ht m).hresp
  cases hw : (i n).hwrite <;> simp only [accessState, hw] at hs <;> simp [hs] at hr he
  all_goals exact ⟨by simp [ApbBridge.psel, hs], by simp [ApbBridge.penable, hs], h.paddr,
    by simp [ApbBridge.pwrite, hs, hw], h.pwdata, hr, he⟩

/-- The first cycle of the data phase of a write samples its data. -/
theorem sample_of_accept (ht : Tied i) (ha : (i n).accept = true) (hw : (i n).hwrite = true) :
    (run i (n + 1)).apbState = .wr0 ∧ Responds i false false (n + 1) := by
  have hs : (run i (n + 1)).apbState = .wr0 := by
    rw [(run_of_accept ht ha).1, if_pos hw]
  refine ⟨hs, by simp [ApbBridge.psel, hs], ?_, ?_⟩
  · rw [(inv_run ht _).hreadyResp, hs]
    rfl
  · rw [(inv_run ht _).hresp, hs]
    rfl

/-- **The setup cycle.** -/
theorem at_setup (ht : Tied i) (ha : (i n).accept = true) :
    At i n (setupState (i n)) (setupCycle i n) := by
  obtain ⟨hstate, hpaddr⟩ := run_of_accept ht ha
  cases hw : (i n).hwrite with
  | false =>
    rw [setupCycle, setupState, hw]
    rw [hw] at hstate
    exact ⟨hstate, hpaddr, fun h => by rw [hw] at h; cases h⟩
  | true =>
    obtain ⟨hs, hresp⟩ := sample_of_accept ht ha hw
    rw [setupCycle, setupState, hw]
    refine ⟨?_, (paddr_of_stall ht hresp.hreadyResp).trans hpaddr, fun _ => ?_⟩
    · change (run i (n + 1)).apbStateNxt (i (n + 1)) = .wr1
      rw [apbStateNxt, hs]
    · change (if (run i (n + 1)).apbState == .wr0 then _ else _) = _
      rw [hs]
      rfl

/-- One cycle more of the access phase. -/
theorem At.next (ht : Tied i) {st st' : ApbState} (h : At i n st m)
    (hr : (run i m).hreadyResp = false) (hst : st ≠ .wr0)
    (hnext : (run i m).apbStateNxt (i m) = st') : At i n st' (m + 1) :=
  ⟨hnext, (paddr_of_stall ht hr).trans h.paddr, fun hw =>
    (pwdata_step _ (h.state.trans_ne hst)).trans (h.pwdata hw)⟩

/-- **The access phase** lasts while the peripheral is not ready. -/
theorem at_access (ht : Tied i) (ha : (i n).accept = true) (j : ℕ) (hj : Waiting i n j) :
    At i n (accessState (i n)) (setupCycle i n + 1 + j) := by
  induction j with
  | zero =>
    have h := at_setup ht ha
    refine h.next ht (h.drives_setup ht).hreadyResp ?_ ?_
    · cases hw : (i n).hwrite <;> simp [setupState, hw]
    · rw [apbStateNxt, h.state]
      cases hw : (i n).hwrite <;> simp [setupState, accessState, hw]
  | succ j ih =>
    have h := ih (fun l hl => hj l (Nat.lt_succ_of_lt hl))
    have hp := hj j (Nat.lt_succ_self j)
    refine h.next ht (h.drives_access ht).hreadyResp ?_ ?_
    · cases hw : (i n).hwrite <;> simp [accessState, hw]
    · rw [apbStateNxt, h.state]
      cases hw : (i n).hwrite <;> simp [accessState, hw, hp]

/-- A response without an APB access: `S_READY`, `S_ERR0` and `S_ERR1`. -/
theorem responds_of_state (ht : Tied i) {st : ApbState} (hs : (run i m).apbState = st)
    (hst : st = .ready ∨ st = .err0 ∨ st = .err1) :
    Responds i (st == .ready || st == .err1) (st == .err0 || st == .err1) m := by
  refine ⟨?_, by rw [(inv_run ht m).hreadyResp, hs], by rw [(inv_run ht m).hresp, hs]⟩
  rcases hst with rfl | rfl | rfl <;> simp [ApbBridge.psel, hs]

/-- The end of an access without an error. -/
theorem okay_of_pready (ht : Tied i) (h : At i n (accessState (i n)) m)
    (hp : (i m).pready = true) (he : (i m).pslverr = false) :
    Responds i true false (m + 1) ∧
      ((i n).hwrite = false → (run i (m + 1)).hrdata = (i m).prdata) := by
  have hs : (run i (m + 1)).apbState = .ready := by
    change (run i m).apbStateNxt (i m) = .ready
    rw [apbStateNxt, h.state]
    cases hw : (i n).hwrite <;> simp [accessState, hw, hp, he]
  refine ⟨responds_of_state ht hs (Or.inl rfl), fun hw => ?_⟩
  change (if (run i m).apbState == .rd1 && (i m).pready then _ else _) = _
  rw [h.state, accessState, hw, hp]
  rfl

/-- The end of an access with an error: two cycles. -/
theorem error_of_pready (ht : Tied i) (h : At i n (accessState (i n)) m)
    (hp : (i m).pready = true) (he : (i m).pslverr = true) :
    Responds i false true (m + 1) ∧ Responds i true true (m + 2) := by
  have hs : (run i (m + 1)).apbState = .err0 := by
    change (run i m).apbStateNxt (i m) = .err0
    rw [apbStateNxt, h.state]
    cases hw : (i n).hwrite <;> simp [accessState, hw, hp, he]
  have hs' : (run i (m + 2)).apbState = .err1 := by
    change (run i (m + 1)).apbStateNxt (i (m + 1)) = .err1
    rw [apbStateNxt, hs]
  exact ⟨responds_of_state ht hs (Or.inr (Or.inl rfl)),
    responds_of_state ht hs' (Or.inr (Or.inr rfl))⟩

/-- Every accepted transfer is carried. -/
theorem carried_of_accept (ht : Tied i) (ha : (i n).accept = true) : Carried i n where
  sample hw := (sample_of_accept ht ha hw).2
  setup := (at_setup ht ha).drives_setup ht
  access j hj := (at_access ht ha j hj).drives_access ht
  okay j hj hp he := okay_of_pready ht (at_access ht ha j hj) hp he
  error j hj hp he := error_of_pready ht (at_access ht ha j hj) hp he

/-- **Where an access comes from**: in the states before a response, a transfer has been accepted
and is as far. -/
def Origin (i : ℕ → ApbBridgeIn) (m : ℕ) : ApbState → Prop
  | .wr0 => ∃ n, (i n).accept = true ∧ (i n).hwrite = true ∧ m = n + 1
  | .wr1 | .rd0 => ∃ n, (i n).accept = true ∧ m = setupCycle i n
  | .wr2 | .rd1 => ∃ n j, (i n).accept = true ∧ Waiting i n j ∧ m = setupCycle i n + 1 + j
  | .ready | .err0 | .err1 => True

/-- An access phase begins after the setup cycle, and goes on when the peripheral is not ready. -/
theorem Origin.access_first (h : ∃ n, (i n).accept = true ∧ m = setupCycle i n) :
    ∃ n j, (i n).accept = true ∧ Waiting i n j ∧ m + 1 = setupCycle i n + 1 + j := by
  obtain ⟨n, ha, rfl⟩ := h
  exact ⟨n, 0, ha, fun l hl => absurd hl (Nat.not_lt_zero l), rfl⟩

theorem Origin.access_next
    (h : ∃ n j, (i n).accept = true ∧ Waiting i n j ∧ m = setupCycle i n + 1 + j)
    (hp : (i m).pready = false) :
    ∃ n j, (i n).accept = true ∧ Waiting i n j ∧ m + 1 = setupCycle i n + 1 + j := by
  obtain ⟨n, j, ha, hj, rfl⟩ := h
  refine ⟨n, j + 1, ha, fun l hl => ?_, rfl⟩
  rcases Nat.lt_succ_iff_lt_or_eq.mp hl with hlt | rfl
  · exact hj l hlt
  · exact hp

/-- The data phase of a transfer begins when it is accepted. -/
theorem Origin.accept (hx : (i m).hready = true) :
    Origin i (m + 1) (aphaseToDphase (i m)) := by
  cases htr : (i m).htrans.getLsbD 1 with
  | false =>
    rw [aphaseToDphase_idle htr]
    trivial
  | true =>
    have ha : (i m).accept = true := by rw [ApbBridgeIn.accept, htr, hx]; rfl
    rw [aphaseToDphase_active htr]
    cases hw : (i m).hwrite with
    | false => exact ⟨m, ha, by rw [setupCycle, hw]; rfl⟩
    | true => exact ⟨m, ha, hw, rfl⟩

/-- Every state has its origin. -/
theorem origin_run (ht : Tied i) (m : ℕ) : Origin i m (run i m).apbState := by
  induction m with
  | zero => trivial
  | succ m ih =>
    change Origin i (m + 1) ((run i m).apbStateNxt (i m))
    rw [apbStateNxt]
    cases hs : (run i m).apbState <;> rw [hs] at ih
    case ready =>
      dsimp only
      split_ifs with hx
      · exact Origin.accept hx
      · trivial
    case err1 =>
      -- the second cycle of an error response ends a data phase, so `hready` is high
      have hinv := inv_run ht m
      have hd : dataPhase i m = true := by
        by_contra hd
        have := hinv.idle (Bool.eq_false_iff.mpr hd)
        rw [hs] at this
        cases this
      have hx : (i m).hready = true := by
        rw [ht m hd, hinv.hreadyResp, hs]
        rfl
      exact Origin.accept hx
    case wr0 =>
      obtain ⟨n, ha, hw, rfl⟩ := ih
      exact ⟨n, ha, by rw [setupCycle, hw]; rfl⟩
    case wr1 => exact Origin.access_first ih
    case rd0 => exact Origin.access_first ih
    case err0 => trivial
    all_goals
      dsimp only
      split_ifs with hp he
      · trivial
      · trivial
      · exact Origin.access_next ih (Bool.eq_false_iff.mpr hp)

/-- An access in flight keeps further transfers out. -/
theorem not_accept_of_drives (ht : Tied i) {e : Bool} (h : Drives i n e m) :
    (i m).accept = false := by
  rw [ApbBridgeIn.accept, hready_of_stall ht h.hreadyResp, Bool.and_false]

/-- **Transfers in order**: the next one is accepted after `pready` of the one before. -/
theorem ended_of_accept (ht : Tied i) (ha : (i n).accept = true) (ha' : (i m).accept = true)
    (hlt : n < m) : ∃ j, Waiting i n j ∧ (i (setupCycle i n + 1 + j)).pready = true ∧
      setupCycle i n + 1 + j < m := by
  have hc := carried_of_accept ht ha
  by_contra hnone
  -- otherwise the peripheral has kept the access waiting up to cycle `m`
  have hwait : ∀ j, setupCycle i n + 1 + j ≤ m → Waiting i n j := by
    intro j
    induction j with
    | zero => exact fun _ l hl => absurd hl (Nat.not_lt_zero l)
    | succ j ih =>
      intro hj l hl
      rcases Nat.lt_succ_iff_lt_or_eq.mp hl with hl | rfl
      · exact ih (by omega) l hl
      · by_contra hp
        exact hnone ⟨l, ih (by omega), by simpa using hp, by omega⟩
  have hm : (i m).accept = false := by
    rcases Nat.lt_trichotomy m (setupCycle i n) with h | rfl | h
    · have hw : (i n).hwrite = true ∧ m = n + 1 := by
        rw [setupCycle] at h
        split_ifs at h with hw
        · exact ⟨hw, by omega⟩
        · omega
      obtain ⟨hw, rfl⟩ := hw
      rw [ApbBridgeIn.accept, hready_of_stall ht (hc.sample hw).hreadyResp, Bool.and_false]
    · exact not_accept_of_drives ht hc.setup
    · obtain ⟨j, rfl⟩ : ∃ j, m = setupCycle i n + 1 + j := Nat.exists_eq_add_of_le h
      exact not_accept_of_drives ht (hc.access j (hwait j (Nat.le_refl _)))
  rw [hm] at ha'
  cases ha'

/-- **The bridge carries every transfer.** For every sequence of transfers and every behaviour of
the peripheral: an accepted transfer has its setup cycle, its access phase and its response; an APB
access is the one of an accepted transfer; and a transfer is accepted only after the access of the
one before has ended, so accesses come in the order of the transfers. -/
theorem bridge_carries (ht : Tied i) :
    (∀ n, (i n).accept = true → Carried i n) ∧
      (∀ m, (run i m).psel = true → ∃ n, (i n).accept = true ∧ (m = setupCycle i n ∨
        ∃ j, Waiting i n j ∧ m = setupCycle i n + 1 + j)) ∧
      ∀ n m, (i n).accept = true → (i m).accept = true → n < m →
        ∃ j, Waiting i n j ∧ (i (setupCycle i n + 1 + j)).pready = true ∧
          setupCycle i n + 1 + j < m := by
  refine ⟨fun n ha => carried_of_accept ht ha, fun m hp => ?_,
    fun n m ha ha' hlt => ended_of_accept ht ha ha' hlt⟩
  have ho := origin_run ht m
  cases hs : (run i m).apbState <;> rw [hs] at ho <;> simp only [ApbBridge.psel, hs] at hp
  case rd0 | wr1 =>
    obtain ⟨n, ha, hm⟩ := ho
    exact ⟨n, ha, Or.inl hm⟩
  case rd1 | wr2 =>
    obtain ⟨n, j, ha, hj, hm⟩ := ho
    exact ⟨n, ha, Or.inr ⟨j, hj, hm⟩⟩
  all_goals cases hp

end Life

/-! ## The wiring of the SoC -/

/-- A run in which `hready` is `hready_resp` in every cycle: the bridge alone on its bus. -/
def wired (d : ℕ → ApbBridgeIn) : ℕ → ApbBridge
  | 0 => reset
  | n + 1 => (wired d n).step { d n with hready := (wired d n).hreadyResp }

/-- The inputs of such a run. -/
def wire (d : ℕ → ApbBridgeIn) (n : ℕ) : ApbBridgeIn :=
  { d n with hready := (wired d n).hreadyResp }

theorem run_wire (d : ℕ → ApbBridgeIn) (n : ℕ) : run (wire d) n = wired d n := by
  induction n with
  | zero => rfl
  | succ n ih =>
    rw [run_succ, ih]
    rfl

/-- Any transfers can be presented on such a bus. -/
theorem tied_wire (d : ℕ → ApbBridgeIn) : Tied (wire d) := fun n _ => by
  rw [run_wire]
  rfl

/-- A store of 7 to `0x40004008`, and a load from there that the peripheral refuses after a wait. -/
def storeAndLoad (n : ℕ) : ApbBridgeIn where
  haddr := 0x40004008
  hwrite := n == 0
  htrans := if n = 0 ∨ n = 4 then 2 else 0
  hwdata := 7
  hready := true
  pready := n != 6
  prdata := 0
  pslverr := n == 7

/-- The load is accepted in the last cycle of the store's data phase, and both are carried. -/
theorem bridge_carries_storeAndLoad :
    Carried (wire storeAndLoad) 0 ∧ Carried (wire storeAndLoad) 4 ∧
      Waiting (wire storeAndLoad) 4 1 ∧ (wire storeAndLoad 7).pslverr = true := by
  have h := bridge_carries (tied_wire storeAndLoad)
  refine ⟨h.1 0 (by decide), h.1 4 (by decide), fun l hl => ?_, by decide⟩
  obtain rfl : l = 0 := by omega
  decide

end ApbBridge

end KwsSoc.Bus
