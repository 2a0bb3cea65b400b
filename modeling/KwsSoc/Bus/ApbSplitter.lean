import KwsSoc.Bus.ApbBridge
import KwsSoc.Bus.Arbiter

/-! # The APB splitter

A model of `busfabric/apb_splitter.v` for any number of peripherals, and of the APB side of
`kws_soc.v`: the bridge with the splitter behind it (`inputs`). The five slots of the SoC take every
address, and no address is in two of them (`exact_kwsApb`). **`kwsApb_reaches`**: a transfer on the
AHB reaches the peripheral of its slot and no other, once, and is answered by it; and every access
that a peripheral completes is the one of such a transfer. -/

namespace KwsSoc.Bus

/-- What a peripheral sees. -/
structure ApbReq where
  paddr : BitVec 16
  psel : Bool
  penable : Bool
  pwrite : Bool
  pwdata : BitVec 32
  deriving DecidableEq

/-- What a peripheral answers. -/
structure ApbResp where
  pready : Bool
  prdata : BitVec 32
  pslverr : Bool

/-- The parameters of a splitter. -/
structure ApbSplitter (n : ℕ) where
  addrMap : BitVec (n * 16)
  addrMask : BitVec (n * 16)

namespace ApbSplitter

variable {n : ℕ} (s : ApbSplitter n)

/-- `decode_mask`. -/
def decodeMask (paddr : BitVec 16) (k : Fin n) : Bool :=
  (paddr &&& s.addrMask.extractLsb' (k * 16) 16) == s.addrMap.extractLsb' (k * 16) 16

/-- `apbs_pready`. -/
def apbsPready (paddr : BitVec 16) (m : Fin n → ApbResp) : Bool :=
  !anyBit (s.decodeMask paddr) || anyBit fun k => s.decodeMask paddr k && (m k).pready

/-- `apbs_pslverr`. -/
def apbsPslverr (paddr : BitVec 16) (m : Fin n → ApbResp) : Bool :=
  !anyBit (s.decodeMask paddr) || anyBit fun k => s.decodeMask paddr k && (m k).pslverr

/-- `apbs_prdata`. -/
def apbsPrdata (paddr : BitVec 16) (m : Fin n → ApbResp) : BitVec 32 :=
  onehotMux (fun k => (m k).prdata) (s.decodeMask paddr)

/-- What peripheral `k` sees. -/
def apbm (r : ApbReq) (k : Fin n) : ApbReq where
  paddr := r.paddr
  psel := s.decodeMask r.paddr k && r.psel
  penable := s.decodeMask r.paddr k && r.penable
  pwrite := s.decodeMask r.paddr k && r.pwrite
  pwdata := r.pwdata

/-- What the bridge drives. -/
def bridgeReq (b : ApbBridge) : ApbReq := ⟨b.paddr, b.psel, b.penable, b.pwrite, b.pwdata⟩

/-! ## The slots -/

/-- Every address is in one slot. -/
def Exact : Prop := ∀ paddr, ∃ k, ∀ j, s.decodeMask paddr j = true ↔ j = k

/-- In the slot of `k` the splitter passes its answers on. -/
structure Passes (paddr : BitVec 16) (k : Fin n) (m : Fin n → ApbResp) : Prop where
  pready : s.apbsPready paddr m = (m k).pready
  pslverr : s.apbsPslverr paddr m = (m k).pslverr
  prdata : s.apbsPrdata paddr m = (m k).prdata

variable {s}

theorem anyBit_slot {x : Fin n → Bool} {k : Fin n} (h : ∀ j, x j = true ↔ j = k) (y : Fin n → Bool) :
    (!anyBit x || anyBit fun j => x j && y j) = y k := by
  have hany : anyBit x = true := anyBit_iff.mpr ⟨k, (h k).mpr rfl⟩
  rw [hany, Bool.not_true, Bool.false_or, Bool.eq_iff_iff, anyBit_iff]
  constructor
  · rintro ⟨j, hj⟩
    rw [Bool.and_eq_true, h j] at hj
    rw [← hj.1]
    exact hj.2
  · intro hk
    exact ⟨k, by rw [(h k).mpr rfl, hk]; rfl⟩

theorem passes {paddr : BitVec 16} {k : Fin n} (h : ∀ j, s.decodeMask paddr j = true ↔ j = k)
    (m : Fin n → ApbResp) : s.Passes paddr k m where
  pready := anyBit_slot h _
  pslverr := anyBit_slot h _
  prdata := onehotMux_eq _ (fun i j hi hj => ((h i).mp hi).trans ((h j).mp hj).symm) ((h k).mpr rfl)

/-- In one slot no other is selected. -/
theorem Exact.eq_of_decode (hs : s.Exact) {paddr : BitVec 16} {k : Fin n}
    (hk : s.decodeMask paddr k = true) (j : Fin n) : s.decodeMask paddr j = true ↔ j = k := by
  obtain ⟨i, hi⟩ := hs paddr
  rw [(hi k).mp hk]
  exact hi j

/-- The APB side of the SoC: snooper, accelerator, I2S, UART and timer. -/
def kwsApb : ApbSplitter 5 := ⟨0xE000C000800040000000, 0xE000E000C000C000C000⟩

/-- A slot is told by the upper three address bits. -/
theorem decodeMask_kwsApb (paddr : BitVec 16) (k : Fin 5) :
    kwsApb.decodeMask paddr k =
      kwsApb.decodeMask ((paddr.extractLsb' 13 3).setWidth 16 <<< 13) k := by
  have hupper : (paddr.extractLsb' 13 3).setWidth 16 <<< 13 = paddr &&& 0xE000#16 := by
    apply BitVec.eq_of_getLsbD_eq
    intro i hi
    interval_cases i <;> simp
  have hmask : ∀ k : Fin 5, 0xE000#16 &&& kwsApb.addrMask.extractLsb' (k * 16) 16 =
      kwsApb.addrMask.extractLsb' (k * 16) 16 := by decide
  unfold decodeMask
  rw [hupper, BitVec.and_assoc, hmask k]

theorem exact_kwsApb : kwsApb.Exact := by
  intro paddr
  simp only [decodeMask_kwsApb paddr]
  generalize paddr.extractLsb' 13 3 = upper
  revert upper
  decide

/-- The base addresses of the firmware. -/
example : ([0x40000000, 0x40004000, 0x40008000, 0x4000C000, 0x4000E000] : List (BitVec 32)).map
    (fun a => (List.finRange 5).filter (kwsApb.decodeMask (a.setWidth 16))) =
      [[0], [1], [2], [3], [4]] := by decide

/-! ## Bridge and splitter -/

section Run

variable (s) (d : ℕ → ApbBridgeIn) (m : ℕ → Fin n → ApbResp)

/-- What the splitter drives in place of the peripheral of the bridge. -/
def answer (x : ApbBridgeIn) (paddr : BitVec 16) (m : Fin n → ApbResp) : ApbBridgeIn :=
  { x with
    pready := s.apbsPready paddr m
    prdata := s.apbsPrdata paddr m
    pslverr := s.apbsPslverr paddr m }

/-- The bridge in cycle `c`, with the splitter behind it. The AHB is driven by `d`, and the
peripherals answer `m`. -/
def bridge : ℕ → ApbBridge
  | 0 => .reset
  | c + 1 => (bridge c).step (s.answer (d c) (bridge c).paddr (m c))

/-- The inputs of the bridge. -/
def inputs (c : ℕ) : ApbBridgeIn := s.answer (d c) (s.bridge d m c).paddr (m c)

theorem run_inputs (c : ℕ) : ApbBridge.run (s.inputs d m) c = s.bridge d m c := by
  induction c with
  | zero => rfl
  | succ c ih =>
    rw [ApbBridge.run_succ, ih]
    rfl

/-- What peripheral `k` sees in cycle `c`. -/
def sees (c : ℕ) (k : Fin n) : ApbReq := s.apbm (bridgeReq (s.bridge d m c)) k

/-- Peripheral `k` completes an access in cycle `c`. -/
def Completes (c : ℕ) (k : Fin n) : Prop :=
  (s.sees d m c k).psel = true ∧ (s.sees d m c k).penable = true ∧ (m c k).pready = true

/-- The setup cycle of the transfer accepted in cycle `c`. -/
def setupCycle (c : ℕ) : ℕ := if (d c).hwrite then c + 2 else c + 1

/-- In the first `j` cycles of the access phase peripheral `k` is not ready. -/
def Waiting (c : ℕ) (k : Fin n) (j : ℕ) : Prop :=
  ∀ l < j, (m (setupCycle d c + 1 + l) k).pready = false

/-- In cycle `c'` peripheral `k` sees the transfer accepted in cycle `c`, and no other sees any. -/
structure Shown (c : ℕ) (k : Fin n) (enable : Bool) (c' : ℕ) : Prop where
  psel : (s.sees d m c' k).psel = true
  penable : (s.sees d m c' k).penable = enable
  paddr : (s.sees d m c' k).paddr = (d c).haddr.setWidth 16
  pwrite : (s.sees d m c' k).pwrite = (d c).hwrite
  pwdata : (d c).hwrite = true → (s.sees d m c' k).pwdata = (d (c + 1)).hwdata
  others : ∀ j ≠ k, (s.sees d m c' j).psel = false

/-- **The transfer accepted in cycle `c` reaches peripheral `k`**, which answers it. -/
structure Reaches (c : ℕ) (k : Fin n) : Prop where
  setup : s.Shown d m c k false (setupCycle d c)
  access : ∀ j, Waiting d m c k j → s.Shown d m c k true (setupCycle d c + 1 + j)
  okay : ∀ j, Waiting d m c k j → (m (setupCycle d c + 1 + j) k).pready = true →
    (m (setupCycle d c + 1 + j) k).pslverr = false →
      ApbBridge.Responds (s.inputs d m) true false (setupCycle d c + 1 + j + 1) ∧
        ((d c).hwrite = false → (s.bridge d m (setupCycle d c + 1 + j + 1)).hrdata =
          (m (setupCycle d c + 1 + j) k).prdata)
  error : ∀ j, Waiting d m c k j → (m (setupCycle d c + 1 + j) k).pready = true →
    (m (setupCycle d c + 1 + j) k).pslverr = true →
      ApbBridge.Responds (s.inputs d m) false true (setupCycle d c + 1 + j + 1) ∧
        ApbBridge.Responds (s.inputs d m) true true (setupCycle d c + 1 + j + 2)

/-- The access of the transfer accepted in cycle `c` ends in cycle `c'`. -/
def EndsAt (c : ℕ) (k : Fin n) (c' : ℕ) : Prop :=
  ∃ j, Waiting d m c k j ∧ c' = setupCycle d c + 1 + j ∧ (m c' k).pready = true

end Run

/-! ## Transfers -/

section Transfers

variable {d : ℕ → ApbBridgeIn} {m : ℕ → Fin n → ApbResp} {c c' : ℕ} {k : Fin n} {e : Bool}

/-- The slot of the transfer accepted in cycle `c`. -/
def Targets (s : ApbSplitter n) (d : ℕ → ApbBridgeIn) (c : ℕ) (k : Fin n) : Prop :=
  (d c).accept = true ∧ s.decodeMask ((d c).haddr.setWidth 16) k = true

/-- While the bridge drives a transfer, its peripheral answers. -/
theorem passes_of_drives (hs : s.Exact) (hk : s.decodeMask ((d c).haddr.setWidth 16) k = true)
    (h : ApbBridge.Drives (s.inputs d m) c e c') :
    s.Passes (s.bridge d m c').paddr k (m c') := by
  have hpaddr := h.paddr
  rw [run_inputs] at hpaddr
  rw [hpaddr]
  exact passes (hs.eq_of_decode hk) (m c')

/-- And its peripheral alone sees it. -/
theorem shown_of_drives (hs : s.Exact) (hk : s.decodeMask ((d c).haddr.setWidth 16) k = true)
    (h : ApbBridge.Drives (s.inputs d m) c e c') : s.Shown d m c k e c' := by
  obtain ⟨hpsel, hpenable, hpaddr, hpwrite, hpwdata, -, -⟩ := h
  rw [run_inputs] at hpsel hpenable hpaddr hpwrite hpwdata
  have hdecode : ∀ j, s.decodeMask (bridgeReq (s.bridge d m c')).paddr j = true ↔ j = k := by
    show ∀ j, s.decodeMask (s.bridge d m c').paddr j = true ↔ j = k
    rw [hpaddr]
    exact hs.eq_of_decode hk
  have hself := (hdecode k).mpr rfl
  refine ⟨?_, ?_, hpaddr, ?_, hpwdata, fun j hj => ?_⟩
  · show (_ && _) = true
    rw [hself, Bool.true_and]
    exact hpsel
  · show (_ && _) = e
    rw [hself, Bool.true_and]
    exact hpenable
  · show (_ && _) = _
    rw [hself, Bool.true_and]
    exact hpwrite
  · show (_ && _) = false
    rw [Bool.eq_false_iff.mpr (mt (hdecode j).mp hj), Bool.false_and]

/-- **The bridge waits for the peripheral.** -/
theorem waiting_iff (hs : s.Exact) (ht : ApbBridge.Tied (s.inputs d m)) (hc : s.Targets d c k)
    (j : ℕ) : Waiting d m c k j ↔ ApbBridge.Waiting (s.inputs d m) c j := by
  have hcarried := ApbBridge.carried_of_accept ht hc.1
  induction j with
  | zero => exact ⟨fun _ l hl => absurd hl (Nat.not_lt_zero l), fun _ l hl => absurd hl (Nat.not_lt_zero l)⟩
  | succ j ih =>
    have hlast : ApbBridge.Waiting (s.inputs d m) c j →
        (s.inputs d m (setupCycle d c + 1 + j)).pready = (m (setupCycle d c + 1 + j) k).pready :=
      fun hw => (passes_of_drives hs hc.2 (hcarried.access j hw)).pready
    constructor
    · intro hw
      have hprev := ih.mp fun l hl => hw l (Nat.lt_succ_of_lt hl)
      intro l hl
      rcases Nat.lt_succ_iff_lt_or_eq.mp hl with hlt | rfl
      · exact hprev l hlt
      · exact (hlast hprev).trans (hw l hl)
    · intro hw
      have hprev : ApbBridge.Waiting (s.inputs d m) c j := fun l hl => hw l (Nat.lt_succ_of_lt hl)
      intro l hl
      rcases Nat.lt_succ_iff_lt_or_eq.mp hl with hlt | rfl
      · exact ih.mpr hprev l hlt
      · exact (hlast hprev).symm.trans (hw l hl)

/-- **Every transfer reaches the peripheral of its slot.** -/
theorem reaches_of_accept (hs : s.Exact) (ht : ApbBridge.Tied (s.inputs d m))
    (hc : s.Targets d c k) : s.Reaches d m c k := by
  have hcarried := ApbBridge.carried_of_accept ht hc.1
  have hwait := waiting_iff hs ht hc
  have hpasses (j : ℕ) (hw : Waiting d m c k j) :=
    passes_of_drives hs hc.2 (hcarried.access j ((hwait j).mp hw))
  refine ⟨shown_of_drives hs hc.2 hcarried.setup,
    fun j hw => shown_of_drives hs hc.2 (hcarried.access j ((hwait j).mp hw)),
    fun j hw hready herr => ?_, fun j hw hready herr => ?_⟩
  · have hp := hpasses j hw
    obtain ⟨hresp, hdata⟩ := hcarried.okay j ((hwait j).mp hw) (hp.pready.trans hready)
      (hp.pslverr.trans herr)
    refine ⟨hresp, fun hread => ?_⟩
    have hbridge := hdata hread
    rw [run_inputs] at hbridge
    exact hbridge.trans hp.prdata
  · have hp := hpasses j hw
    exact hcarried.error j ((hwait j).mp hw) (hp.pready.trans hready) (hp.pslverr.trans herr)

/-- The end of its access is one that the peripheral completes. -/
theorem Reaches.completes (h : s.Reaches d m c k) (he : EndsAt d m c k c') :
    s.Completes d m c' k := by
  obtain ⟨j, hw, rfl, hready⟩ := he
  have hshown := h.access j hw
  exact ⟨hshown.psel, hshown.penable, hready⟩

/-- **Every access has a transfer.** -/
theorem targets_of_completes (hs : s.Exact) (ht : ApbBridge.Tied (s.inputs d m))
    (h : s.Completes d m c' k) : ∃ c, s.Targets d c k ∧ EndsAt d m c k c' := by
  obtain ⟨hpsel, hpenable, hready⟩ := h
  obtain ⟨hk, -⟩ := Bool.and_eq_true _ _ ▸ hpsel
  obtain ⟨-, hen⟩ := Bool.and_eq_true _ _ ▸ hpenable
  -- the bridge is in an access phase
  have horigin : ∃ c j, (s.inputs d m c).accept = true ∧ ApbBridge.Waiting (s.inputs d m) c j ∧
      c' = setupCycle d c + 1 + j := by
    have ho := ApbBridge.origin_run ht c'
    rw [run_inputs] at ho
    change (s.bridge d m c').penable = true at hen
    unfold ApbBridge.penable at hen
    cases hst : (s.bridge d m c').apbState <;> rw [hst] at ho hen
    case rd1 | wr2 => exact ho
    all_goals cases hen
  obtain ⟨c, j, ha, hw, rfl⟩ := horigin
  have hpaddr := ((ApbBridge.carried_of_accept ht ha).access j hw).paddr
  rw [run_inputs] at hpaddr
  change s.decodeMask (s.bridge d m _).paddr k = true at hk
  have hc : s.Targets d c k := ⟨ha, by
    have hslot := hk
    rw [show (s.bridge d m (setupCycle d c + 1 + j)).paddr = (d c).haddr.setWidth 16 from hpaddr]
      at hslot
    exact hslot⟩
  exact ⟨c, hc, j, (waiting_iff hs ht hc j).mpr hw, rfl, hready⟩

/-- **Accesses end in order**: before the next transfer is accepted. -/
theorem endsAt_of_accept (hs : s.Exact) (ht : ApbBridge.Tied (s.inputs d m))
    (hc : s.Targets d c k) (ha : (d c').accept = true) (hlt : c < c') :
    ∃ c'' < c', EndsAt d m c k c'' := by
  obtain ⟨j, hw, hready, hbefore⟩ := ApbBridge.ended_of_accept ht hc.1 ha hlt
  have hp := passes_of_drives hs hc.2 ((ApbBridge.carried_of_accept ht hc.1).access j hw)
  exact ⟨_, hbefore, j, (waiting_iff hs ht hc j).mpr hw, rfl, hp.pready.symm.trans hready⟩

/-- An access ends once. -/
theorem EndsAt.unique {c₁ c₂ : ℕ} (h₁ : EndsAt d m c k c₁) (h₂ : EndsAt d m c k c₂) : c₁ = c₂ := by
  obtain ⟨j₁, hw₁, rfl, hr₁⟩ := h₁
  obtain ⟨j₂, hw₂, rfl, hr₂⟩ := h₂
  rcases Nat.lt_trichotomy j₁ j₂ with hlt | rfl | hlt
  · exact absurd (hr₁.symm.trans (hw₂ j₁ hlt)) (by decide)
  · rfl
  · exact absurd (hr₂.symm.trans (hw₁ j₂ hlt)) (by decide)

/-- Two transfers do not share an access. -/
theorem EndsAt.inj (hs : s.Exact) (ht : ApbBridge.Tied (s.inputs d m)) {c₁ c₂ : ℕ}
    (hc₁ : s.Targets d c₁ k) (hc₂ : s.Targets d c₂ k) (h₁ : EndsAt d m c₁ k c')
    (h₂ : EndsAt d m c₂ k c') : ¬ c₁ < c₂ := by
  intro hlt
  obtain ⟨c'', hbefore, hends⟩ := endsAt_of_accept hs ht hc₁ hc₂.1 hlt
  obtain rfl := h₁.unique hends
  -- but the access of the second transfer comes after its address phase
  obtain ⟨j, -, heq, -⟩ := h₂
  unfold setupCycle at heq
  split at heq <;> omega

end Transfers

/-- **The APB of the SoC**: every transfer that the bridge accepts is shown to the peripheral of its
slot and to no other, and is answered as the peripheral answers; every access that a peripheral
completes is the one of exactly one such transfer; and accesses end in the order of the transfers. -/
theorem kwsApb_reaches (d : ℕ → ApbBridgeIn) (m : ℕ → Fin 5 → ApbResp)
    (ht : ApbBridge.Tied (kwsApb.inputs d m)) :
    (∀ c, (d c).accept = true → ∃ k, kwsApb.Targets d c k ∧ kwsApb.Reaches d m c k ∧
      ∀ c', EndsAt d m c k c' → kwsApb.Completes d m c' k) ∧
    (∀ c' k, kwsApb.Completes d m c' k → ∃! c, kwsApb.Targets d c k ∧ EndsAt d m c k c') ∧
    ∀ c c' k, kwsApb.Targets d c k → (d c').accept = true → c < c' →
      ∃ c'' < c', EndsAt d m c k c'' := by
  have hs := exact_kwsApb
  refine ⟨fun c ha => ?_, fun c' k h => ?_, fun c c' k hc ha hlt => endsAt_of_accept hs ht hc ha hlt⟩
  · obtain ⟨k, hk⟩ := hs ((d c).haddr.setWidth 16)
    have hc : kwsApb.Targets d c k := ⟨ha, (hk k).mpr rfl⟩
    have hreaches := reaches_of_accept hs ht hc
    exact ⟨k, hc, hreaches, fun c' he => hreaches.completes he⟩
  · obtain ⟨c, hc, he⟩ := targets_of_completes hs ht h
    refine ⟨c, ⟨hc, he⟩, fun c₂ h₂ => ?_⟩
    exact Nat.le_antisymm (not_lt.mp (EndsAt.inj hs ht hc h₂.1 he h₂.2))
      (not_lt.mp (EndsAt.inj hs ht h₂.1 hc h₂.2 he))

/-! ## The bridge alone on its bus -/

section Wire

variable (s : ApbSplitter n) (x : ℕ → ApbBridgeIn) (m : ℕ → Fin n → ApbResp)

/-- A run in which `hready` is `hready_resp` in every cycle. -/
def wired : ℕ → ApbBridge
  | 0 => .reset
  | c + 1 => (wired c).step
      (s.answer { x c with hready := (wired c).hreadyResp } (wired c).paddr (m c))

/-- The transfers of such a run. -/
def wire (c : ℕ) : ApbBridgeIn := { x c with hready := (s.wired x m c).hreadyResp }

theorem bridge_wire (c : ℕ) : s.bridge (s.wire x m) m c = s.wired x m c := by
  induction c with
  | zero => rfl
  | succ c ih =>
    show (s.bridge (s.wire x m) m c).step _ = _
    rw [ih]
    rfl

theorem tied_wire : ApbBridge.Tied (s.inputs (s.wire x m) m) := by
  intro c _
  rw [run_inputs, bridge_wire]
  rfl

end Wire

/-- Peripherals that wait in cycle 6 and refuse in cycle 7. -/
def waitAndRefuse (c : ℕ) (k : Fin 5) : ApbResp := ⟨c != 6, .ofNat 32 k, c == 7⟩

/-- A store to the UART and a load from there. -/
theorem kwsApb_reaches_storeAndLoad :
    let d := kwsApb.wire ApbBridge.storeAndLoad waitAndRefuse
    (∃ k, kwsApb.Targets d 0 k ∧ kwsApb.Reaches d waitAndRefuse 0 k ∧
      ∀ c', EndsAt d waitAndRefuse 0 k c' → kwsApb.Completes d waitAndRefuse c' k) ∧
    ∃! c, kwsApb.Targets d c 1 ∧ EndsAt d waitAndRefuse c 1 7 := by
  have h := kwsApb_reaches (kwsApb.wire ApbBridge.storeAndLoad waitAndRefuse) waitAndRefuse
    (tied_wire _ _ _)
  exact ⟨h.1 0 (by decide), h.2.1 7 1 ⟨by decide, by decide, by decide⟩⟩

end ApbSplitter

end KwsSoc.Bus
