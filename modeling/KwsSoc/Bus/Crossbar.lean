import KwsSoc.Bus.Arbiter
import KwsSoc.Lib.SyncMachine

/-! # The AHB-Lite crossbar

A model of `busfabric/ahbl_splitter.v` and `busfabric/ahbl_crossbar.v`: one splitter a master, one
arbiter a slave, and the wiring between them (`Wiring`), for any numbers of masters and slaves.
`kwsSoc` is the instance of `kws_soc.v`. `hexokay` is tied to 0 there and is left out. -/

namespace KwsSoc.Bus

/-! ## The splitter -/

/-- Registers of an `n`-port splitter. -/
structure Splitter (n : ℕ) where
  slaveSelD : Fin n → Bool
  decodeErrD : Bool
  errPh1 : Bool

namespace Splitter

variable {n : ℕ}

/-- Reset. -/
def reset (n : ℕ) : Splitter n := ⟨fun _ => false, false, false⟩

/-- One clock edge, for the decoded selections of the address phase. -/
def step (s : Splitter n) (srcHready : Bool) (slaveSelA : Fin n → Bool) (decodeErrA : Bool) :
    Splitter n where
  slaveSelD := if srcHready then slaveSelA else s.slaveSelD
  decodeErrD := if srcHready then decodeErrA else s.decodeErrD
  errPh1 := if s.decodeErrD then !s.errPh1 else false

/-- `src_hready_resp`, from data-phase state only. -/
def srcHreadyResp (s : Splitter n) (dstHreadyResp : Fin n → Bool) : Bool :=
  (!anyBit s.slaveSelD && (s.errPh1 || !s.decodeErrD)) ||
    anyBit fun j => s.slaveSelD j && dstHreadyResp j

/-- `src_hresp`. -/
def srcHresp (s : Splitter n) (dstHresp : Fin n → Bool) : Bool :=
  s.decodeErrD || anyBit fun j => s.slaveSelD j && dstHresp j

end Splitter

/-! ## The wiring -/

/-- **Wiring of a crossbar.** The address ranges are mutually exclusive, as the splitter requires,
and the two connection matrices say the same. -/
structure Wiring (M N : ℕ) where
  addrMap : Fin N → BitVec 32
  addrMask : Fin N → BitVec 32
  connMatrix : Fin M → Fin N → Bool
  connMatrixTranspose : Fin N → Fin M → Bool
  exclusive : ∀ (a : BitVec 32) (j k : Fin N), (a ^^^ addrMap j) &&& addrMask j = 0 →
    (a ^^^ addrMap k) &&& addrMask k = 0 → j = k
  consistent : ∀ i j, connMatrixTranspose j i = connMatrix i j

namespace Wiring

variable {M N : ℕ} (W : Wiring M N)

/-- `slave_sel_a_nomask`. -/
def slaveSelANomask (r : Req) (j : Fin N) : Bool :=
  r.htrans != 0#2 && (r.haddr ^^^ W.addrMap j) &&& W.addrMask j == 0

/-- `slave_sel_a` of master `i`. -/
def slaveSelA (i : Fin M) (r : Req) (j : Fin N) : Bool :=
  W.slaveSelANomask r j && W.connMatrix i j

/-- `decode_err_a`. -/
def decodeErrA (r : Req) : Bool := r.htrans != 0#2 && !anyBit (W.slaveSelANomask r)

/-- An address phase selects at most one slave. -/
theorem slaveSelA_unique {i : Fin M} {r : Req} {j k : Fin N} (hj : W.slaveSelA i r j = true)
    (hk : W.slaveSelA i r k = true) : j = k := by
  simp only [slaveSelA, slaveSelANomask, Bool.and_eq_true, beq_iff_eq] at hj hk
  exact W.exclusive r.haddr j k hj.1.2 hk.1.2

theorem slaveSelA_conn {i : Fin M} {r : Req} {j : Fin N} (hj : W.slaveSelA i r j = true) :
    W.connMatrix i j = true := by
  rw [slaveSelA, Bool.and_eq_true] at hj
  exact hj.2

end Wiring

/-! ## The crossbar -/

/-- Registers of the crossbar. -/
structure Xbar (M N : ℕ) where
  split : Fin M → Splitter N
  arb : Fin N → Arbiter M

/-- What masters and slaves drive in one cycle. -/
structure XbarIn (M N : ℕ) where
  req : Fin M → Req
  hwdata : Fin M → BitVec 32
  hreadyResp : Fin N → Bool
  hresp : Fin N → Bool
  hrdata : Fin N → BitVec 32

namespace Xbar

variable {M N : ℕ}

/-- Reset. -/
def reset (M N : ℕ) : Xbar M N := ⟨fun _ => .reset N, fun _ => .reset M⟩

variable (W : Wiring M N)

/-- `split_hready_resp`: a disconnected port always responds ready. -/
def splitHreadyResp (s : Xbar M N) (x : XbarIn M N) (i : Fin M) (j : Fin N) : Bool :=
  if W.connMatrix i j then (s.arb j).srcHreadyResp (x.hreadyResp j) i else true

/-- `HREADY` of master `i`: its own `src_hready_resp`, tied back. -/
def hready (s : Xbar M N) (x : XbarIn M N) (i : Fin M) : Bool :=
  (s.split i).srcHreadyResp (s.splitHreadyResp W x i)

/-- `HRESP` of master `i`. -/
def hresp (s : Xbar M N) (x : XbarIn M N) (i : Fin M) : Bool :=
  (s.split i).srcHresp fun j =>
    if W.connMatrix i j then (s.arb j).srcHresp (x.hresp j) i else true

/-- `HRDATA` of master `i`. -/
def hrdata (s : Xbar M N) (x : XbarIn M N) (i : Fin M) : BitVec 32 :=
  onehotMux (fun j => if W.connMatrix i j then x.hrdata j else 0) (s.split i).slaveSelD

/-- The address phase the splitter of master `i` passes to the arbiter of slave `j`: `HTRANS` is
gated by the selection, and a disconnected port is idle. -/
def splitReq (x : XbarIn M N) (i : Fin M) (j : Fin N) : Req :=
  if W.connMatrix i j then
    { x.req i with htrans := if W.slaveSelA i (x.req i) j then (x.req i).htrans else 0 }
  else .zero

/-- The ports of the arbiter of slave `j`. -/
def arbIn (s : Xbar M N) (x : XbarIn M N) (j : Fin N) : ArbiterIn M where
  srcHready i := if W.connMatrix i j then s.hready W x i else true
  src i := splitReq W x i j

/-- The grant of slave `j` in the address phase. -/
def gntA (s : Xbar M N) (x : XbarIn M N) (j : Fin N) : Fin M → Bool :=
  (s.arb j).mastGntA (W.connMatrixTranspose j) (s.arbIn W x j)

/-- `HREADY` as slave `j` sees it. -/
def dstHready (s : Xbar M N) (x : XbarIn M N) (j : Fin N) : Bool :=
  (s.arb j).dstHready (s.arbIn W x j)

/-- The address phase slave `j` sees. -/
def dstReq (s : Xbar M N) (x : XbarIn M N) (j : Fin N) : Req :=
  (s.arb j).dstReq (W.connMatrixTranspose j) (s.arbIn W x j)

/-- The write data slave `j` sees. -/
def dstHwdata (s : Xbar M N) (x : XbarIn M N) (j : Fin N) : BitVec 32 :=
  (s.arb j).dstHwdata fun i => if W.connMatrix i j then x.hwdata i else 0

/-- One clock edge. -/
def step (s : Xbar M N) (x : XbarIn M N) : Xbar M N where
  split i := (s.split i).step (s.hready W x i) (W.slaveSelA i (x.req i)) (W.decodeErrA (x.req i))
  arb j := (s.arb j).step (W.connMatrixTranspose j) (s.arbIn W x j)

end Xbar

/-! ## The instance of the SoC -/

/-- Two addresses in one range of a mask agree with each other under the mask. -/
theorem masked_eq_of_mem {a b c m : BitVec 32} (hb : (a ^^^ b) &&& m = 0)
    (hc : (a ^^^ c) &&& m = 0) : (b ^^^ c) &&& m = 0 := by
  apply BitVec.eq_of_getLsbD_eq
  intro i hi
  have h1 := congrArg (fun v => v.getLsbD i) hb
  have h2 := congrArg (fun v => v.getLsbD i) hc
  simp only [BitVec.ofNat_eq_ofNat, BitVec.getLsbD_and, BitVec.getLsbD_xor, BitVec.getLsbD_zero]
    at h1 h2 ⊢
  revert h1 h2
  cases a.getLsbD i <;> cases b.getLsbD i <;> cases c.getLsbD i <;> cases m.getLsbD i <;> decide

/-- **The crossbar of the SoC**: masters i-port, d-port, DMA and accelerator; slaves SRAM, APB
bridge, DMA registers and XIP. -/
def kwsSoc : Wiring 4 4 where
  addrMap j := (0x80000000_60000000_40000000_00000000#128).extractLsb' (32 * j) 32
  addrMask j := (0xe0000000_e0000000_e0000000_e0000000#128).extractLsb' (32 * j) 32
  connMatrix i j := (0b1001_0011_1111_1001#16).getLsbD (4 * i + j)
  connMatrixTranspose j i := (0b1011_0010_0110_1111#16).getLsbD (4 * j + i)
  exclusive a j k hj hk := by
    have hmask : ∀ l : Fin 4, (0xe0000000_e0000000_e0000000_e0000000#128).extractLsb' (32 * l) 32 =
        0xe0000000#32 := by decide
    rw [hmask] at hj hk
    have h := masked_eq_of_mem hj hk
    clear hj hk
    revert j k
    decide
  consistent := by decide

/-- **The crossbar of the SoC with `XIP_PLAYBACK`**: the sample player is a fifth master, connected
to XIP only. -/
def kwsSocPlayback : Wiring 5 4 where
  addrMap := kwsSoc.addrMap
  addrMask := kwsSoc.addrMask
  connMatrix i j := (0b1000_1001_0011_1111_1001#20).getLsbD (4 * i + j)
  connMatrixTranspose j i := (0b11011_00010_00110_01111#20).getLsbD (5 * j + i)
  exclusive := kwsSoc.exclusive
  consistent := by decide

end KwsSoc.Bus
