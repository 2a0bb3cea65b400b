import KwsSoc.Lib.SyncMachine
import KwsSoc.Lib.StreamRing

/-! # The bus snooper, register by register

`peris/snooper/bus_snooper.v`: a pending slot that holds the address phase of a transfer until its
data phase ends (`Regs.step`), a ring of 16 entries that the slot is committed to, and the APB port
that controls the snooper and reads the ring out (`Regs.prdata`). -/

namespace KwsSoc.Snooper

/-! ## Taps -/

/-- What the address-phase taps show in a cycle: the bridge port, the CPU d-port, and the state of
the CPU pipeline. -/
structure APhase where
  haddr : BitVec 16
  hwrite : Bool
  htrans : BitVec 2
  dportHaddr : BitVec 32
  dportHwrite : Bool
  dportHtrans : BitVec 2
  aphReq : Bool
  xmMemop : BitVec 5
  mBusStall : Bool
  deriving DecidableEq

/-- What the data-phase taps show in a cycle. -/
structure DPhase where
  hwdata : BitVec 32
  mWdata : BitVec 32
  mwRd : BitVec 5
  xmRs2 : BitVec 5
  xmResult : BitVec 32
  mwResult : BitVec 32

/-- The snooper's own APB port. -/
structure Apb where
  psel : Bool
  penable : Bool
  pwrite : Bool
  paddr : BitVec 16
  pwdata : BitVec 32

/-- The inputs of one cycle. -/
structure Inputs where
  aphase : APhase
  dphase : DPhase
  hready : Bool
  apb : Apb

/-! ## Entries -/

/-- A ring entry: eight words. -/
structure Entry where
  rCycle : BitVec 32
  rAddrctrl : BitVec 32
  rHwdata : BitVec 32
  rMwdata : BitVec 32
  rIdx : BitVec 32
  rXmres : BitVec 32
  rMwres : BitVec 32
  rDportA : BitVec 32
  deriving DecidableEq

/-- The `addr_ctrl` word. -/
def APhase.addrctrl (a : APhase) : BitVec 32 :=
  0#3 ++ BitVec.ofBool a.mBusStall ++ a.xmMemop ++ BitVec.ofBool a.aphReq ++ a.dportHtrans
    ++ BitVec.ofBool a.dportHwrite ++ a.htrans ++ BitVec.ofBool a.hwrite ++ a.haddr

/-- The entry of a transfer: its address phase, and the cycle in which its data phase ends. -/
def Entry.of (a : APhase) (d : DPhase) (cycleCtr : BitVec 32) : Entry where
  rCycle := cycleCtr
  rAddrctrl := a.addrctrl
  rHwdata := d.hwdata
  rMwdata := d.mWdata
  rIdx := 0#19 ++ d.mwRd ++ 0#3 ++ d.xmRs2
  rXmres := d.xmResult
  rMwres := d.mwResult
  rDportA := a.dportHaddr

/-- The bits of the `addr_ctrl` word, at the width of its parts. -/
theorem addrctrl_getLsbD (a : APhase) (i : ℕ) :
    a.addrctrl.getLsbD i = (0#3 ++ BitVec.ofBool a.mBusStall ++ a.xmMemop ++ BitVec.ofBool a.aphReq
      ++ a.dportHtrans ++ BitVec.ofBool a.dportHwrite ++ a.htrans ++ BitVec.ofBool a.hwrite
      ++ a.haddr).getLsbD i := rfl

/-- Address, direction and d-port tap can be read off an entry. -/
theorem addrctrl_fields (a : APhase) :
    a.addrctrl.extractLsb' 0 16 = a.haddr ∧ a.addrctrl.getLsbD 16 = a.hwrite ∧
      a.addrctrl.extractLsb' 17 2 = a.htrans ∧ a.addrctrl.getLsbD 19 = a.dportHwrite ∧
      a.addrctrl.extractLsb' 20 2 = a.dportHtrans := by
  -- `getLsbD_append` picks the part a bit belongs to; the first use is the lowest part
  refine ⟨?_, ?_, ?_, ?_, ?_⟩
  · ext k hk
    rw [BitVec.getElem_extractLsb', addrctrl_getLsbD, BitVec.getLsbD_append]
    simp [hk, BitVec.getLsbD_eq_getElem]
  · rw [addrctrl_getLsbD]
    repeat rw [BitVec.getLsbD_append]
    simp
  · ext k hk
    rw [BitVec.getElem_extractLsb', addrctrl_getLsbD]
    repeat rw [BitVec.getLsbD_append]
    grind
  · rw [addrctrl_getLsbD]
    repeat rw [BitVec.getLsbD_append]
    simp
  · ext k hk
    rw [BitVec.getElem_extractLsb', addrctrl_getLsbD]
    repeat rw [BitVec.getLsbD_append]
    grind

/-! ## Registers -/

def ADDR_CTRL : BitVec 10 := 0x200#10
def ADDR_STAT : BitVec 10 := 0x204#10
def ADDR_CYCLE : BitVec 10 := 0x208#10
def ADDR_RESET : BitVec 10 := 0x20c#10

def N_ENTRIES : ℕ := 16

/-- The registers; `pend` is the pending slot. -/
structure Regs where
  ring : BitVec 4 → Entry
  head : BitVec 4
  count : BitVec 5
  cycleCtr : BitVec 32
  enable : Bool
  pendVld : Bool
  pend : APhase

namespace Regs

/-- Reset: the ring has no reset value. -/
def reset (ring : BitVec 4 → Entry) : Regs where
  ring := ring
  head := 0
  count := 0
  cycleCtr := 0
  enable := false
  pendVld := false
  pend := ⟨0, false, 0, 0, false, 0, false, 0x10#5, false⟩

end Regs

namespace Inputs

def wen (x : Inputs) : Bool := x.apb.psel && x.apb.penable && x.apb.pwrite

/-- `saddr`. -/
def saddr (x : Inputs) : BitVec 10 := x.apb.paddr.extractLsb' 0 10

def ctrlWen (x : Inputs) : Bool := x.wen && (x.saddr == ADDR_CTRL)

def resetWen (x : Inputs) : Bool := x.wen && (x.saddr == ADDR_RESET) && x.apb.pwdata.getLsbD 0

end Inputs

namespace Regs

/-- The pending slot goes into the ring. -/
def commit (s : Regs) (x : Inputs) : Bool := s.enable && s.pendVld && x.hready

/-- The address phase of this cycle goes into the pending slot. -/
def latchAphase (s : Regs) (x : Inputs) : Bool :=
  s.enable && x.aphase.htrans.getLsbD 1 && (!s.pendVld || x.hready)

/-- The entry that a commit writes. -/
def entry (s : Regs) (x : Inputs) : Entry := Entry.of s.pend x.dphase s.cycleCtr

/-- A commit. -/
def push (s : Regs) (e : Entry) : Regs :=
  { s with
    ring := Function.update s.ring s.head e
    head := s.head + 1
    count := if s.count ≠ BitVec.ofNat 5 N_ENTRIES then s.count + 1 else s.count }

/-- `count` saturates at the size of the ring. -/
theorem push_count {s : Regs} (e : Entry) (h : s.count.toNat ≤ N_ENTRIES) :
    (s.push e).count.toNat = min N_ENTRIES (s.count.toNat + 1) := by
  have hfull : s.count ≠ BitVec.ofNat 5 N_ENTRIES ↔ s.count.toNat ≠ N_ENTRIES := by
    rw [ne_eq, ← BitVec.toNat_inj]
    rfl
  rw [push]
  by_cases hne : s.count ≠ BitVec.ofNat 5 N_ENTRIES
  · have := hfull.mp hne
    rw [if_pos hne, BitVec.toNat_add]
    simp only [N_ENTRIES, BitVec.ofNat_eq_ofNat, BitVec.toNat_ofNat] at *
    omega
  · have := (not_congr hfull).mp hne
    rw [if_neg hne]
    show s.count.toNat = _
    omega

/-- One clock edge. -/
def step (s : Regs) (x : Inputs) : Regs :=
  let s' := { s with
    cycleCtr := s.cycleCtr + 1
    enable := if x.ctrlWen then x.apb.pwdata.getLsbD 0 else s.enable }
  if x.resetWen then { s' with head := 0, count := 0, pendVld := false }
  else
    let s'' := if s.commit x then s'.push (s.entry x) else s'
    if s.latchAphase x then { s'' with pendVld := true, pend := x.aphase }
    else if s.commit x then { s'' with pendVld := false }
    else s''

/-- CTRL is written whatever the ring does. -/
theorem step_enable (s : Regs) (x : Inputs) :
    (s.step x).enable = if x.ctrlWen then x.apb.pwdata.getLsbD 0 else s.enable := by
  cases hr : x.resetWen <;> cases hl : s.latchAphase x <;> cases hc : s.commit x <;>
    simp [step, push, hr, hl, hc]

/-- The pending slot after a cycle. -/
theorem step_slot (s : Regs) (x : Inputs) :
    (s.step x).pendVld = (!x.resetWen && (s.latchAphase x || (s.pendVld && !s.commit x))) ∧
      (s.step x).pend = if !x.resetWen && s.latchAphase x then x.aphase else s.pend := by
  cases hr : x.resetWen <;> cases hl : s.latchAphase x <;> cases hc : s.commit x <;>
    simp [step, push, hr, hl, hc]

/-- The ring after a cycle without a reset. -/
theorem step_ring {s : Regs} {x : Inputs} (hr : x.resetWen = false) :
    (s.step x).ring = (if s.commit x then s.push (s.entry x) else s).ring ∧
      (s.step x).head = (if s.commit x then s.push (s.entry x) else s).head ∧
      (s.step x).count = (if s.commit x then s.push (s.entry x) else s).count := by
  cases hl : s.latchAphase x <;> cases hc : s.commit x <;>
    simp [step, push, hr, hl, hc]

/-! ## Reading the ring out -/

/-- `ring_rdata`: word `r_word_idx` of entry `r_ent_idx`. -/
def ringRdata (s : Regs) (paddr : BitVec 16) : BitVec 32 :=
  let e := s.ring (paddr.extractLsb' 5 4)
  match paddr.extractLsb' 2 3 with
  | 0#3 => e.rCycle
  | 1#3 => e.rAddrctrl
  | 2#3 => e.rHwdata
  | 3#3 => e.rMwdata
  | 4#3 => e.rIdx
  | 5#3 => e.rXmres
  | 6#3 => e.rMwres
  | _ => e.rDportA

/-- `csr_rdata`. -/
def csrRdata (s : Regs) (paddr : BitVec 16) : BitVec 32 :=
  let saddr := paddr.extractLsb' 0 10
  if saddr = ADDR_CTRL then 0#31 ++ BitVec.ofBool s.enable
  else if saddr = ADDR_STAT then 0#19 ++ s.head ++ 0#4 ++ s.count
  else if saddr = ADDR_CYCLE then s.cycleCtr
  else 0

/-- `apbs_prdata`. -/
def prdata (s : Regs) (paddr : BitVec 16) : BitVec 32 :=
  if paddr.getLsbD 9 then s.csrRdata paddr else s.ringRdata paddr

/-- Address of word `w` of entry `k`. -/
def wordAddr (k : BitVec 4) (w : BitVec 3) : BitVec 16 := 0#7 ++ k ++ w ++ 0#2

/-- Entry `k` as eight APB reads give it. -/
def readEntry (s : Regs) (k : BitVec 4) : Entry where
  rCycle := s.prdata (wordAddr k 0)
  rAddrctrl := s.prdata (wordAddr k 1)
  rHwdata := s.prdata (wordAddr k 2)
  rMwdata := s.prdata (wordAddr k 3)
  rIdx := s.prdata (wordAddr k 4)
  rXmres := s.prdata (wordAddr k 5)
  rMwres := s.prdata (wordAddr k 6)
  rDportA := s.prdata (wordAddr k 7)

/-- The entries in the ring, oldest first: the `count` entries before `head`. -/
def readRing (s : Regs) : List Entry :=
  (List.range s.count.toNat).map fun i =>
    s.readEntry (s.head - s.count.setWidth 4 + BitVec.ofNat 4 i)

/-- The address of a word selects its entry, its place in the entry, and the ring. -/
theorem wordAddr_fields : ∀ (k : BitVec 4) (w : BitVec 3), (wordAddr k w).getLsbD 9 = false ∧
    (wordAddr k w).extractLsb' 5 4 = k ∧ (wordAddr k w).extractLsb' 2 3 = w := by decide

/-- **The APB reads give the entry.** -/
theorem readEntry_eq (s : Regs) (k : BitVec 4) : s.readEntry k = s.ring k := by
  have hread (w : BitVec 3) : s.prdata (wordAddr k w) = s.ringRdata (wordAddr k w) := by
    rw [prdata, (wordAddr_fields k w).1]
    rfl
  simp only [readEntry, hread, ringRdata, (wordAddr_fields k _).2.1, (wordAddr_fields k _).2.2]
  rfl

end Regs

end KwsSoc.Snooper
