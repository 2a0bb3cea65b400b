import KwsSoc.Accel.Bench
import KwsSoc.Bus.Delivery

/-! # Shared slaves

What the masters of the crossbar share, each slave being any sequential object (`Object`) behind an
AHB-Lite port: it registers the address phase that it sees with `HREADY` high, holds its data phase
up as long as it likes, and serves the transfer when the data phase ends.

* **`shared_atomic`**: in every run without an overlap, of every wiring, the slaves are atomic
  objects. A transfer takes effect once, when the data phase of its master ends, with the master's
  own address and write data; the master reads what the object returns then; and nothing else
  changes an object.
* **`loads_latest`**: as long as no master presents an address phase for another slave while its
  data phase is held up, every load of a memory reads, byte by byte, the data of the last store that
  ended before, whichever master it was of. -/

namespace KwsSoc.Bus

open ByteWord SyncMachine
open Conv1dAccel (Mem wordAlign byteLane_word_wordAlign)

/-! ## Slaves -/

/-- A sequential object: what a transfer reads, and what it leaves behind for its write data. -/
structure Object (σ : Type*) where
  rdata : σ → Req → BitVec 32
  next : σ → Req → BitVec 32 → σ

/-- A slave port: the object, and the transfer whose data phase it is in. -/
structure Port (σ : Type*) where
  state : σ
  dphase : Option Req

namespace Port

variable {σ : Type*} (O : Object σ) (p : Port σ)

/-- A slave is ready unless it holds up a data phase. -/
def hreadyResp (stall : Bool) : Bool := p.dphase.isNone || !stall

/-- What is read in the last cycle of a data phase; elsewhere the slave drives `junk`. -/
def hrdata (stall : Bool) (junk : BitVec 32) : BitVec 32 :=
  match p.dphase with
  | some r => if stall then junk else O.rdata p.state r
  | none => junk

/-- The object behind the data phase. -/
def served (hwdata : BitVec 32) : σ :=
  match p.dphase with
  | some r => O.next p.state r hwdata
  | none => p.state

/-- One clock edge. -/
def step (hready : Bool) (req : Req) (hwdata : BitVec 32) : Port σ :=
  if hready then ⟨p.served O hwdata, if req.active then some req else none⟩ else p

end Port

/-! ## Memories -/

/-- The lane of an address. -/
def lane (a : BitVec 32) : BitVec 2 := a.extractLsb' 0 2

namespace Req

/-- The transfer is of the word that contains the byte. -/
def SameWord (r : Req) (a : BitVec 32) : Prop := wordAlign a = wordAlign r.haddr

/-- The byte is in one of the lanes of the transfer. -/
def Covers (r : Req) (a : BitVec 32) : Prop :=
  r.SameWord a ∧ (lane r.haddr).toNat ≤ (lane a).toNat ∧
    (lane a).toNat < (lane r.haddr).toNat + 2 ^ r.hsize.toNat

/-- The transfer stores into the byte. -/
def Stores (r : Req) (a : BitVec 32) : Prop := r.hwrite = true ∧ r.Covers a

instance (r : Req) (a : BitVec 32) : Decidable (r.SameWord a) := inferInstanceAs (Decidable (_ = _))

instance (r : Req) (a : BitVec 32) : Decidable (r.Covers a) :=
  inferInstanceAs (Decidable (_ ∧ _))

instance (r : Req) (a : BitVec 32) : Decidable (r.Stores a) :=
  inferInstanceAs (Decidable (_ ∧ _))

end Req

/-- **A memory**, whose bytes are `byteAt`. -/
structure Object.IsMemory {σ : Type*} (O : Object σ) (byteAt : σ → BitVec 32 → BitVec 8) :
    Prop where
  load : ∀ s r a, r.hwrite = false → r.SameWord a → byteLane (O.rdata s r) (lane a) = byteAt s a
  store : ∀ s r d a, r.Stores a → byteAt (O.next s r d) a = byteLane d (lane a)
  keep : ∀ s r d a, ¬ r.Stores a → byteAt (O.next s r d) a = byteAt s a

/-- A memory with byte lanes. -/
def byteMemory : Object Mem where
  rdata m r := m.word (wordAlign r.haddr)
  next m r d a := if r.Stores a then byteLane d (lane a) else m a

theorem isMemory_byteMemory : byteMemory.IsMemory fun m a => m a where
  load m r a _ ha := by
    show byteLane (m.word (wordAlign r.haddr)) (a.extractLsb' 0 2) = m a
    rw [← show wordAlign a = wordAlign r.haddr from ha, byteLane_word_wordAlign]
  store m r d a h := if_pos h
  keep m r d a h := if_neg h

/-! ## The system -/

/-- The crossbar and its slaves. -/
structure Shared (M N : ℕ) (σ : Type*) where
  xbar : Xbar M N
  port : Fin N → Port σ

/-- What masters drive, and what slaves leave open. -/
structure SharedIn (M N : ℕ) where
  req : Fin M → Req
  hwdata : Fin M → BitVec 32
  stall : Fin N → Bool
  hresp : Fin N → Bool
  junk : Fin N → BitVec 32

namespace Shared

variable {M N : ℕ} {σ : Type*} (W : Wiring M N) (O : Fin N → Object σ)

/-- The inputs of the crossbar. -/
def xbarIn (s : Shared M N σ) (x : SharedIn M N) : XbarIn M N where
  req := x.req
  hwdata := x.hwdata
  hreadyResp j := (s.port j).hreadyResp (x.stall j)
  hresp := x.hresp
  hrdata j := (s.port j).hrdata (O j) (x.stall j) (x.junk j)

/-- One clock edge. -/
def step (s : Shared M N σ) (x : SharedIn M N) : Shared M N σ :=
  let y := s.xbarIn O x
  { xbar := s.xbar.step W y
    port j := (s.port j).step (O j) (s.xbar.dstHready W y j) (s.xbar.dstReq W y j)
      (s.xbar.dstHwdata W y j) }

/-- Reset, with the objects in their initial states. -/
def reset (M : ℕ) (init : Fin N → σ) : Shared M N σ := ⟨.reset M N, fun j => ⟨init j, none⟩⟩

/-! ## Runs -/

section Run

variable (init : Fin N → σ) (e : ℕ → SharedIn M N)

/-- The state in cycle `n`. -/
def run (n : ℕ) : Shared M N σ := trace (step W O) (reset M init) e n

/-- What the crossbar sees in cycle `n`. -/
def ins (n : ℕ) : XbarIn M N := (run W O init e n).xbarIn O (e n)

/-- Object `j` in cycle `n`. -/
def state (n : ℕ) (j : Fin N) : σ := ((run W O init e n).port j).state

/-- Master `i` ends in cycle `k` the data phase of the transfer that it took for slave `j` in cycle
`n`. -/
structure Ends (n k : ℕ) (i : Fin M) (j : Fin N) : Prop where
  takes : Xbar.Takes W (ins W O init e) n i j
  dphase : Xbar.InDataPhase W (ins W O init e) n i k
  ready : Xbar.readyAt W (ins W O init e) k i = true

/-- **Atomic objects**, to the masters. -/
structure Atomic : Prop where
  /-- A transfer takes effect when its data phase ends. -/
  next : ∀ n k i j, Ends W O init e n k i j →
    state W O init e (k + 1) j = (O j).next (state W O init e k j) ((e n).req i) ((e k).hwdata i)
  /-- Its master reads what the object returns then. -/
  rdata : ∀ n k i j, Ends W O init e n k i j →
    (run W O init e k).xbar.hrdata W (ins W O init e k) i =
      (O j).rdata (state W O init e k j) ((e n).req i)
  /-- Nothing else changes an object. -/
  frame : ∀ k j, (∀ n i, ¬ Ends W O init e n k i j) →
    state W O init e (k + 1) j = state W O init e k j
  /-- Transfers to one object end one after the other. -/
  apart : ∀ n n' k i i' j, Ends W O init e n k i j → Ends W O init e n' k i' j → i = i' ∧ n = n'

variable {W O init e}

/-- The crossbar runs on what it sees. -/
theorem run_xbar (n : ℕ) : (run W O init e n).xbar = Xbar.run W (ins W O init e) n := by
  induction n with
  | zero => rfl
  | succ n ih =>
    show (run W O init e n).xbar.step W (ins W O init e n) = _
    rw [ih]
    rfl

theorem run_port_succ (n : ℕ) (j : Fin N) :
    (run W O init e (n + 1)).port j = ((run W O init e n).port j).step (O j)
      ((Xbar.run W (ins W O init e) n).dstHready W (ins W O init e n) j)
      ((Xbar.run W (ins W O init e) n).dstReq W (ins W O init e n) j)
      ((Xbar.run W (ins W O init e) n).dstHwdata W (ins W O init e n) j) := by
  rw [← run_xbar]
  rfl

/-! ## A port and its master -/

/-- Without a grant the slave sees an idle address phase. -/
theorem dstReq_idle {a : Arbiter M} {connMask : Fin M → Bool} {x : ArbiterIn M}
    (h : anyBit (a.mastGntA connMask x) = false) : (a.dstReq connMask x).active = false := by
  have hnone : ∀ i, a.mastGntA connMask x i = false := fun i => by
    rw [Bool.eq_false_iff]
    intro hi
    rw [anyBit_iff.mpr ⟨i, hi⟩] at h
    cases h
  have hmux : (a.dstReq connMask x).htrans = 0 := by
    show onehotMux _ _ = 0
    simp [onehotMux, hnone]
  rw [Req.active, hmux]
  rfl

variable (W O init e) in
/-- **A port in cycle `k`**: its data phase is that of a transfer of the master it serves. -/
structure PortInv (k : ℕ) (j : Fin N) : Prop where
  serves : ∀ i, ((Xbar.run W (ins W O init e) k).arb j).mastGntD i = true →
    ∃ n, Xbar.Takes W (ins W O init e) n i j ∧ Xbar.InDataPhase W (ins W O init e) n i k ∧
      ((run W O init e k).port j).dphase = some ((e n).req i)
  idle : anyBit ((Xbar.run W (ins W O init e) k).arb j).mastGntD = false →
    ((run W O init e k).port j).dphase = none

/-- **Step lemma.** -/
theorem PortInv.step (hno : Xbar.NoOverlap W (ins W O init e)) {k : ℕ} {j : Fin N}
    (h : PortInv W O init e k j) : PortInv W O init e (k + 1) j := by
  have hdel := Xbar.exactlyOnce_of_noOverlap hno
  have hinv := Xbar.inv_run hno k
  have hgnt : ((Xbar.run W (ins W O init e) (k + 1)).arb j).mastGntD =
      if (Xbar.run W (ins W O init e) k).dstHready W (ins W O init e k) j then
        (Xbar.run W (ins W O init e) k).gntA W (ins W O init e k) j
      else ((Xbar.run W (ins W O init e) k).arb j).mastGntD := rfl
  cases hd : (Xbar.run W (ins W O init e) k).dstHready W (ins W O init e k) j with
  | true =>
    -- the slave registers what it sees
    rw [hd, if_pos rfl] at hgnt
    refine ⟨fun i hi => ?_, fun hi => ?_⟩
    · rw [hgnt] at hi
      have ha : Xbar.acceptsAt W (ins W O init e) k j i = true := by
        rw [Xbar.acceptsAt, Xbar.accepts, hi, hd]
        rfl
      obtain ⟨n, hn, ht, hlow⟩ := hdel.noOther k i j ha
      have hphase : Xbar.InDataPhase W (ins W O init e) n i (k + 1) :=
        ⟨Nat.lt_succ_of_le hn, fun l hl hl' => hlow l hl (Nat.lt_succ_iff.mp hl')⟩
      have hreq := hdel.request n i j ht (k + 1) hphase k hn (Nat.lt_succ_self k) ha
      have hactive : ((ins W O init e n).req i).active = true := by
        have hlive := ht.2
        rw [Xbar.Live, Bool.and_eq_true] at hlive
        exact hlive.2
      refine ⟨n, ht, hphase, ?_⟩
      rw [run_port_succ, hd, hreq, Port.step, if_pos rfl, hactive, if_pos rfl]
      rfl
    · rw [hgnt] at hi
      have hactive : ((Xbar.run W (ins W O init e) k).dstReq W (ins W O init e k) j).active =
          false := dstReq_idle hi
      rw [run_port_succ, hd, Port.step, if_pos rfl, hactive, if_neg Bool.false_ne_true]
  | false =>
    rw [hd, if_neg Bool.false_ne_true] at hgnt
    have hport : (run W O init e (k + 1)).port j = (run W O init e k).port j := by
      rw [run_port_succ, hd, Port.step, if_neg Bool.false_ne_true]
    refine ⟨fun i hi => ?_, fun hi => ?_⟩
    · rw [hgnt] at hi
      obtain ⟨n, ht, ⟨hn, hlow⟩, hdphase⟩ := h.serves i hi
      refine ⟨n, ht, ⟨Nat.lt_succ_of_lt hn, fun l hl hl' => ?_⟩, ?_⟩
      · rcases Nat.lt_succ_iff_lt_or_eq.mp hl' with hlt | rfl
        · exact hlow l hl hlt
        · rw [Xbar.readyAt, ← Xbar.dstHready_of_serve hinv hi]
          exact hd
      · rw [hport]
        exact hdphase
    · rw [hgnt] at hi
      rw [hport]
      exact h.idle hi

theorem portInv_run (hno : Xbar.NoOverlap W (ins W O init e)) (k : ℕ) (j : Fin N) :
    PortInv W O init e k j := by
  induction k with
  | zero => exact ⟨fun i hi => absurd hi Bool.false_ne_true, fun _ => rfl⟩
  | succ k ih => exact ih.step hno

/-! ## Atomicity -/

/-- A data phase belongs to one transfer. -/
theorem inDataPhase_unique {ins : ℕ → XbarIn M N} {n n' k : ℕ} {i : Fin M} {j j' : Fin N}
    (ht : Xbar.Takes W ins n i j) (hd : Xbar.InDataPhase W ins n i k)
    (ht' : Xbar.Takes W ins n' i j') (hd' : Xbar.InDataPhase W ins n' i k) : n = n' := by
  rcases lt_trichotomy n n' with hlt | heq | hlt
  · exact absurd (ht'.1.symm.trans (hd.2 n' hlt hd'.1)) (by decide)
  · exact heq
  · exact absurd (ht.1.symm.trans (hd'.2 n hlt hd.1)) (by decide)

variable (W O init e) in
/-- The end of a transfer at its slave. -/
structure Served (k : ℕ) (i : Fin M) (j : Fin N) (r : Req) : Prop where
  grant : ((Xbar.run W (ins W O init e) k).arb j).mastGntD i = true
  dphase : ((run W O init e k).port j).dphase = some r
  go : (e k).stall j = false
  hready : (Xbar.run W (ins W O init e) k).dstHready W (ins W O init e k) j = true
  hwdata : (Xbar.run W (ins W O init e) k).dstHwdata W (ins W O init e k) j = (e k).hwdata i

/-- Slave and master end a data phase in the same cycle. -/
theorem Ends.served (hno : Xbar.NoOverlap W (ins W O init e)) {n k : ℕ} {i : Fin M} {j : Fin N}
    (h : Ends W O init e n k i j) :
    Served W O init e k i j ((e n).req i) := by
  have hdel := Xbar.exactlyOnce_of_noOverlap hno
  obtain ⟨m, ⟨hm, hmk, ha⟩, -⟩ := hdel.once n i j h.takes k h.dphase h.ready
  have hg := Xbar.served_of_accepts hno h.takes h.dphase hm hmk ha
  obtain ⟨hresp, hhready⟩ := hdel.dataPhase n i j h.takes k h.dphase m hm hmk ha
  obtain ⟨n', ht', hd', hdphase⟩ := (portInv_run hno k j).serves i hg
  obtain rfl := inDataPhase_unique h.takes h.dphase ht' hd'
  refine ⟨hg, hdphase, ?_, hhready.trans h.ready,
    hdel.hwdata n i j h.takes k h.dphase m hm hmk ha⟩
  have hgo : ((run W O init e k).port j).hreadyResp ((e k).stall j) = true := hresp.trans h.ready
  simpa [Port.hreadyResp, hdphase] using hgo

/-- A slave that ends a data phase ends it for a master. -/
theorem exists_ends (hno : Xbar.NoOverlap W (ins W O init e)) {k : ℕ} {j : Fin N}
    (hready : (Xbar.run W (ins W O init e) k).dstHready W (ins W O init e k) j = true)
    (hd : ((run W O init e k).port j).dphase ≠ none) : ∃ n i, Ends W O init e n k i j := by
  have hport := portInv_run hno k j
  have hany : anyBit ((Xbar.run W (ins W O init e) k).arb j).mastGntD = true := by
    rw [← Bool.not_eq_false]
    exact fun hidle => hd (hport.idle hidle)
  obtain ⟨i, hi⟩ := anyBit_iff.mp hany
  obtain ⟨n, ht, hphase, -⟩ := hport.serves i hi
  refine ⟨n, i, ht, hphase, ?_⟩
  rw [Xbar.readyAt, ← Xbar.dstHready_of_serve (Xbar.inv_run hno k) hi]
  exact hready

theorem atomic_of_noOverlap (hno : Xbar.NoOverlap W (ins W O init e)) : Atomic W O init e where
  next n k i j h := by
    have hs := h.served hno
    rw [state, run_port_succ, hs.hready, hs.hwdata, Port.step, if_pos rfl, Port.served, hs.dphase]
    rfl
  rdata n k i j h := by
    have hs := h.served hno
    have hinv := Xbar.inv_run hno k
    have hsel := hinv.serve i j hs.grant
    have hone : AtMostOne ((Xbar.run W (ins W O init e) k).split i).slaveSelD :=
      fun a b ha hb => hinv.single i a b ha hb
    rw [run_xbar, Xbar.hrdata, onehotMux_eq _ hone hsel, if_pos (hinv.conn i j hsel)]
    show ((run W O init e k).port j).hrdata (O j) ((e k).stall j) ((e k).junk j) = _
    rw [Port.hrdata, hs.dphase, hs.go]
    rfl
  frame k j hnone := by
    rw [state, run_port_succ, Port.step]
    split
    · next hready =>
      have hd : ((run W O init e k).port j).dphase = none := by
        by_contra hne
        obtain ⟨n, i, hends⟩ := exists_ends hno hready hne
        exact hnone n i hends
      rw [Port.served, hd]
      rfl
    · rfl
  apart n n' k i i' j h h' := by
    obtain rfl := (Xbar.inv_run hno k).owner j i i' (h.served hno).grant (h'.served hno).grant
    exact ⟨rfl, inDataPhase_unique h.takes h.dphase h'.takes h'.dphase⟩

end Run

/-! ## Masters that keep to a slave -/

section Keeps

variable {W} {ins : ℕ → XbarIn M N}

/-- While its data phase is held up, a master presents address phases for the same slave only. -/
def KeepsTo (W : Wiring M N) (ins : ℕ → XbarIn M N) : Prop :=
  ∀ k i j, Xbar.readyAt W ins k i = false → Xbar.Live W (ins k) i j = true →
    ∃ n, Xbar.Takes W ins n i j ∧ Xbar.InDataPhase W ins n i k

theorem slaveSelD_of_inDataPhase {n k : ℕ} {i : Fin M} {j : Fin N} (ht : Xbar.Takes W ins n i j)
    (hd : Xbar.InDataPhase W ins n i k) : ((Xbar.run W ins k).split i).slaveSelD j = true := by
  obtain ⟨hnk, hlow⟩ := hd
  have hstep (l : ℕ) : ((Xbar.run W ins (l + 1)).split i).slaveSelD =
      if Xbar.readyAt W ins l i then W.slaveSelA i ((ins l).req i)
      else ((Xbar.run W ins l).split i).slaveSelD := rfl
  induction k, hnk using Nat.le_induction with
  | base =>
    have hlive := ht.2
    rw [Xbar.Live, Bool.and_eq_true] at hlive
    rw [hstep, ht.1, if_pos rfl]
    exact hlive.1
  | succ k hnk ih =>
    rw [hstep, hlow k hnk (Nat.lt_succ_self k), if_neg Bool.false_ne_true]
    exact ih fun l hl hl' => hlow l hl (Nat.lt_succ_of_lt hl')

/-- A master that waits for a slave does not overlap with itself there. -/
theorem not_overlap {s : Xbar M N} {x : XbarIn M N} {i : Fin M} {j : Fin N} (h : Xbar.Inv W s)
    (hsel : (s.split i).slaveSelD j = true) : ¬ Xbar.Overlap W s x i j := by
  intro ho
  -- the request is in no buffer, so the slave serves it
  have hg : (s.arb j).mastGntD i = true := by
    by_contra hg
    have hready : s.hready W x i = true := by
      rw [Xbar.hready, Splitter.srcHreadyResp, Bool.or_eq_true]
      refine .inr (anyBit_iff.mpr ⟨j, ?_⟩)
      rw [hsel, Xbar.splitHreadyResp, Arbiter.srcHreadyResp, ho.empty, Bool.eq_false_iff.mpr hg]
      simp
    rw [ho.waiting] at hready
    cases hready
  have hfree := ho.free
  rw [Xbar.dstHready_of_serve h hg, ho.waiting] at hfree
  cases hfree

/-- **Masters that keep to a slave do not overlap.** -/
theorem noOverlap_of_keepsTo (h : KeepsTo W ins) : Xbar.NoOverlap W ins := by
  have hno (n : ℕ) (hinv : Xbar.Inv W (Xbar.run W ins n)) (i : Fin M) (j : Fin N) :
      ¬ Xbar.Overlap W (Xbar.run W ins n) (ins n) i j := by
    intro ho
    obtain ⟨m, ht, hd⟩ := h n i j ho.waiting ho.live
    exact not_overlap hinv (slaveSelD_of_inDataPhase ht hd) ho
  have hinv (n : ℕ) : Xbar.Inv W (Xbar.run W ins n) := by
    induction n with
    | zero => exact Xbar.inv_reset W
    | succ n ih => exact ih.step (hno n ih)
  exact fun n => hno n (hinv n)

end Keeps

/-! ## Two masters at one word -/

/-- The d-port stores a word into SRAM, which stalls for one cycle, and the accelerator asks for the
word in that cycle. -/
def contention (n : ℕ) : SharedIn 4 4 where
  req i :=
    if n = 0 ∧ i.val = 1 then
      { Req.zero with haddr := 0x100, hwrite := true, htrans := 0b10, hsize := 0b010 }
    else if n = 1 ∧ i.val = 3 then { Req.zero with haddr := 0x100, htrans := 0b10, hsize := 0b010 }
    else .zero
  hwdata i := if i.val = 1 then 0xCAFE0042 else 0
  stall j := decide (j.val = 0 ∧ n = 1)
  hresp _ := false
  junk _ := 0xDEADBEEF

theorem keepsTo_contention :
    KeepsTo kwsSoc (ins kwsSoc (fun _ => byteMemory) (fun _ _ => 0) contention) := by
  intro k i j hr hl
  -- both requests are made by ready masters
  have hready (h : k = 0 ∧ i.val = 1 ∨ k = 1 ∧ i.val = 3) :
      Xbar.readyAt kwsSoc (ins kwsSoc (fun _ => byteMemory) (fun _ _ => 0) contention) k i =
        true := by
    rcases h with ⟨rfl, hi⟩ | ⟨rfl, hi⟩
    · obtain rfl : i = 1 := Fin.ext hi
      decide +kernel
    · obtain rfl : i = 3 := Fin.ext hi
      decide +kernel
  have hzero : (contention k).req i = .zero := by
    simp only [contention]
    rw [if_neg fun h => ?_, if_neg fun h => ?_]
    · exact absurd (hr.symm.trans (hready (.inr h))) (by decide)
    · exact absurd (hr.symm.trans (hready (.inl h))) (by decide)
  rw [Xbar.Live, Bool.and_eq_true] at hl
  have hactive : ((contention k).req i).active = true := hl.2
  rw [hzero] at hactive
  cases hactive

/-- The load of the accelerator ends in cycle 3. -/
theorem ends_contention :
    Ends kwsSoc (fun _ => byteMemory) (fun _ _ => 0) contention 1 3 3 0 := by
  refine ⟨⟨by decide +kernel, by decide +kernel⟩, ⟨by decide, fun l hl hl' => ?_⟩,
    by decide +kernel⟩
  obtain rfl : l = 2 := by omega
  decide +kernel

/-! ## Atomic objects -/

/-- **The slaves are atomic objects** in every run without an overlap, of every wiring. -/
theorem shared_atomic (W : Wiring M N) (O : Fin N → Object σ) (init : Fin N → σ)
    (e : ℕ → SharedIn M N) (hno : Xbar.NoOverlap W (ins W O init e)) : Atomic W O init e :=
  atomic_of_noOverlap hno

/-- The accelerator reads what the d-port has stored. -/
theorem shared_atomic_contention :
    Atomic kwsSoc (fun _ => byteMemory) (fun _ _ => 0) contention ∧
      (run kwsSoc (fun _ => byteMemory) (fun _ _ => 0) contention 3).xbar.hrdata kwsSoc
        (ins kwsSoc (fun _ => byteMemory) (fun _ _ => 0) contention 3) 3 = 0xCAFE0042 :=
  ⟨shared_atomic kwsSoc (fun _ => byteMemory) (fun _ _ => 0) contention
    (noOverlap_of_keepsTo keepsTo_contention), by decide +kernel⟩

/-! ## The last store -/

section Latest

variable {W} {O} {init : Fin N → σ} {e : ℕ → SharedIn M N}

variable (W O init e) in
/-- A transfer that ends in cycle `k` stores `v` into the byte at `a` of slave `j`. -/
def StoresAt (j : Fin N) (a : BitVec 32) (k : ℕ) (v : BitVec 8) : Prop :=
  ∃ n i, Ends W O init e n k i j ∧ ((e n).req i).Stores a ∧ v = byteLane ((e k).hwdata i) (lane a)

variable (W O init e) in
/-- The value of the last store into the byte before cycle `k`, `v₀` if there is none. -/
def Latest (j : Fin N) (a : BitVec 32) (v₀ : BitVec 8) (k : ℕ) (v : BitVec 8) : Prop :=
  (∃ m < k, StoresAt W O init e j a m v ∧
      ∀ l, m < l → l < k → ∀ w, ¬ StoresAt W O init e j a l w) ∨
    (v = v₀ ∧ ∀ l < k, ∀ w, ¬ StoresAt W O init e j a l w)

variable {j : Fin N} {a : BitVec 32} {v₀ v : BitVec 8} {k : ℕ}

/-- A cycle without a store. -/
theorem Latest.keep (h : Latest W O init e j a v₀ k v) (hno : ∀ w, ¬ StoresAt W O init e j a k w) :
    Latest W O init e j a v₀ (k + 1) v := by
  rcases h with ⟨m, hm, hs, hlater⟩ | ⟨hv, hnone⟩
  · refine .inl ⟨m, Nat.lt_succ_of_lt hm, hs, fun l hl hl' => ?_⟩
    rcases Nat.lt_succ_iff_lt_or_eq.mp hl' with hlt | rfl
    · exact hlater l hl hlt
    · exact hno
  · refine .inr ⟨hv, fun l hl => ?_⟩
    rcases Nat.lt_succ_iff_lt_or_eq.mp hl with hlt | rfl
    · exact hnone l hlt
    · exact hno

/-- A cycle with a store. -/
theorem Latest.store (h : StoresAt W O init e j a k v) : Latest W O init e j a v₀ (k + 1) v :=
  .inl ⟨k, Nat.lt_succ_self k, h, fun l hl hl' => by omega⟩

/-- **The bytes of a memory** are those of the last stores. -/
theorem latest_state {byteAt : σ → BitVec 32 → BitVec 8} (hat : Atomic W O init e)
    (hmem : (O j).IsMemory byteAt) (k : ℕ) (a : BitVec 32) :
    Latest W O init e j a (byteAt (init j) a) k (byteAt (state W O init e k j) a) := by
  induction k with
  | zero => exact .inr ⟨rfl, fun l hl => absurd hl l.not_lt_zero⟩
  | succ k ih =>
    by_cases hends : ∃ n i, Ends W O init e n k i j
    · obtain ⟨n, i, hi⟩ := hends
      rw [hat.next n k i j hi]
      by_cases hs : ((e n).req i).Stores a
      · rw [hmem.store _ _ _ _ hs]
        exact .store ⟨n, i, hi, hs, rfl⟩
      · rw [hmem.keep _ _ _ _ hs]
        refine ih.keep fun w hw => ?_
        obtain ⟨n', i', hi', hs', -⟩ := hw
        obtain ⟨rfl, rfl⟩ := hat.apart n n' k i i' j hi hi'
        exact hs hs'
    · rw [hat.frame k j fun n i h => hends ⟨n, i, h⟩]
      exact ih.keep fun w ⟨n, i, hi, _⟩ => hends ⟨n, i, hi⟩

end Latest

/-- **Loads read the latest stores**, byte by byte, where slave `j` is a memory. -/
theorem loads_latest (W : Wiring M N) (O : Fin N → Object σ) (init : Fin N → σ)
    (e : ℕ → SharedIn M N) (hkeep : KeepsTo W (ins W O init e)) {j : Fin N}
    {byteAt : σ → BitVec 32 → BitVec 8} (hmem : (O j).IsMemory byteAt) {n k : ℕ} {i : Fin M}
    (h : Ends W O init e n k i j) (hload : ((e n).req i).hwrite = false) {a : BitVec 32}
    (ha : ((e n).req i).SameWord a) :
    Latest W O init e j a (byteAt (init j) a) k
      (byteLane ((run W O init e k).xbar.hrdata W (ins W O init e k) i) (lane a)) := by
  have hat := atomic_of_noOverlap (noOverlap_of_keepsTo hkeep)
  rw [hat.rdata n k i j h, hmem.load _ _ _ hload ha]
  exact latest_state hat hmem k a

/-- One of the bytes that the accelerator reads. -/
theorem loads_latest_contention :
    Latest kwsSoc (fun _ => byteMemory) (fun _ _ => 0) contention 0 0x102 0 3 0xFE := by
  have hbyte : byteLane ((run kwsSoc (fun _ => byteMemory) (fun _ _ => 0) contention 3).xbar.hrdata
      kwsSoc (ins kwsSoc (fun _ => byteMemory) (fun _ _ => 0) contention 3) 3) (lane 0x102) =
        0xFE := by decide +kernel
  rw [← hbyte]
  exact loads_latest kwsSoc (fun _ => byteMemory) (fun _ _ => 0) contention keepsTo_contention
    isMemory_byteMemory ends_contention rfl (by decide)

end Shared

end KwsSoc.Bus
