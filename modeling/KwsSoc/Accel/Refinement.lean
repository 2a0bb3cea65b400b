import KwsSoc.Accel.Relation

/-! # The clocked accelerator refines its program

One lemma per FSM state (`edge_idle` … `edge_macOvlp`): from related states, an edge either matches
one step of the program or stays in the phase and counts down. Together they are the ranked
stuttering simulation `stutterSim`. The only assumption on the bus is `EdgeOk`: no register is
written, and in `S_WRITE_ADDR`, which overwrites `hwdata` without looking at `hready`, no earlier
write is still stalled. -/

namespace KwsSoc.Conv1dAccel.Bench

open ByteWord

/-- The edge does not replace write data that a stalled write still needs: the slave is ready if
the FSM is in `S_WRITE_ADDR` with a write in its data phase. -/
def WriteEdgeOk (b : Bench) (x : BenchIn) : Prop :=
  b.fsm.state = .writeAddr → b.slave.writePending = true → x.hready = true

/-- The edge does not write a register either. -/
def EdgeOk (b : Bench) (x : BenchIn) : Prop := x.apb.isWrite = false ∧ WriteEdgeOk b x

/-- What an edge from related states does. -/
def Edge (c : Config) (a : Seq) (b : Bench) (x : BenchIn) : Prop :=
  Rel c (a.step c) (b.step x) ∨
    (Rel c a (b.step x) ∧ rank (b.step x) ≤ rank b ∧
      (x.hready = true → rank (b.step x) < rank b))

/-! ## Common parts of the edges -/

/-- Outside the two write states the effective memory stays. -/
theorem effMem_step_of_state (b : Bench) (x : BenchIn) (h : b.fsm.state ≠ .writeAddr)
    (hw : b.fsm.htrans.getLsbD 1 = true → b.fsm.hwrite = false) :
    (b.step x).effMem = b.effMem :=
  effMem_step b x hw (Or.inl ((Fsm.step_keeps _ _ _ _ b.fsm).hwdata h))

/-- A stalled edge that keeps the FSM registers keeps the whole system. -/
theorem edge_of_stall {c : Config} {a : Seq} {b : Bench} {x : BenchIn} (h : Rel c a b)
    (hq : x.apb.isWrite = false) (hr : x.hready = false) (hf : (b.step x).fsm = b.fsm) :
    Edge c a b x := by
  have hb : b.step x = b := by
    rcases b with ⟨⟨cfg, r⟩, s⟩
    have hc := step_cfg ⟨⟨cfg, r⟩, s⟩ hq
    have hs := step_slave_stall ⟨⟨cfg, r⟩, s⟩ hr
    simp only [fsm] at hf
    cases hstep : Bench.step ⟨⟨cfg, r⟩, s⟩ x with
    | mk d s' =>
      cases d
      simp_all
  exact Or.inr ⟨hb.symm ▸ h, by rw [hb], by simp [hr]⟩

/-- The shared registers after an edge that keeps the lengths and the effective memory, and puts
the positions where the program has them. -/
theorem Shared.move {c : Config} {a a' : Seq} {b : Bench} {x : BenchIn} {r' : Fsm}
    (h : Shared c a b) (hq : x.apb.isWrite = false) (hf : (b.step x).fsm = r')
    (hmem : (b.step x).effMem = b.effMem)
    (hreg : r'.patchBytes = b.fsm.patchBytes ∧ r'.patchWords = b.fsm.patchWords ∧
      r'.wOutCnt = b.fsm.wOutCnt ∧ r'.rDone = b.fsm.rDone)
    (hpos : r'.cPos = a'.cPos ∧ r'.wPos = a'.wPos ∧ r'.bufSel = a'.bufSel)
    (ha : a'.mem = a.mem) : Shared c a' (b.step x) := by
  subst hf
  obtain ⟨hpb, hpw, hwo, hrd⟩ := hreg
  obtain ⟨hcp, hwp, hbs⟩ := hpos
  exact ⟨(step_cfg b hq).trans h.cfg, hpb.trans h.patchBytes, hpw.trans h.patchWords,
    hwo.trans h.wOutCnt, hcp, hwp, hbs, hrd.trans h.rDone, (hmem.trans h.mem).trans ha.symm⟩

/-- The shared registers survive an edge that keeps them and the effective memory, and carry over
to a program state that agrees on its position and memory. -/
theorem Shared.edge {c : Config} {a a' : Seq} {b : Bench} {x : BenchIn} {r' : Fsm}
    (h : Shared c a b) (hq : x.apb.isWrite = false) (hf : (b.step x).fsm = r')
    (hmem : (b.step x).effMem = b.effMem)
    (hreg : r'.patchBytes = b.fsm.patchBytes ∧ r'.patchWords = b.fsm.patchWords ∧
      r'.wOutCnt = b.fsm.wOutCnt ∧ r'.cPos = b.fsm.cPos ∧ r'.wPos = b.fsm.wPos ∧
      r'.bufSel = b.fsm.bufSel ∧ r'.rDone = b.fsm.rDone)
    (ha : a'.cPos = a.cPos ∧ a'.wPos = a.wPos ∧ a'.bufSel = a.bufSel ∧ a'.mem = a.mem) :
    Shared c a' (b.step x) := by
  obtain ⟨hpb, hpw, hwo, hcp, hwp, hbs, hrd⟩ := hreg
  obtain ⟨hac, haw, hab, ham⟩ := ha
  refine h.move hq hf hmem ⟨hpb, hpw, hwo, hrd⟩ ⟨?_, ?_, ?_⟩ ham
  · rw [hcp, h.cPos, hac]
  · rw [hwp, h.wPos, haw]
  · rw [hbs, h.bufSel, hab]

/-- The buffers survive an edge that keeps them. -/
theorem SameBufs.edge {a a' : Seq} {b : Bench} {x : BenchIn} {r' : Fsm} (h : SameBufs a b)
    (hf : (b.step x).fsm = r') (hreg : r'.inBuf = b.fsm.inBuf ∧ r'.wtBuf = b.fsm.wtBuf)
    (ha : a'.inBuf = a.inBuf ∧ a'.wtBuf = a.wtBuf) : SameBufs a' (b.step x) := by
  subst hf
  exact ⟨(hreg.1.trans h.inBuf).trans ha.1.symm, (hreg.2.trans h.wtBuf).trans ha.2.symm⟩

/-- Bias and shift survive an edge that keeps them. -/
theorem SameCoef.edge {a a' : Seq} {b : Bench} {x : BenchIn} {r' : Fsm} (h : SameCoef a b)
    (hf : (b.step x).fsm = r')
    (hreg : r'.biasVal = b.fsm.biasVal ∧ r'.curShift = b.fsm.curShift)
    (ha : a'.biasVal = a.biasVal ∧ a'.curShift = a.curShift) : SameCoef a' (b.step x) := by
  subst hf
  exact ⟨(hreg.1.trans h.biasVal).trans ha.1.symm, (hreg.2.trans h.curShift).trans ha.2.symm⟩

/-- A newly issued read waits for its first address to be accepted. -/
theorem Burst.first {b : Bench} {sz : BitVec 3} {inc A : BitVec 32} {r' : Fsm} (hf : b.fsm = r')
    (hwrite : r'.hwrite = false) (hsize : r'.hsize = sz) (htrans : r'.htrans = HTRANS_NONSEQ)
    (hwait : r'.rWait = true) (haddr : r'.haddr = A) : Burst b sz inc A 0 := by
  subst hf
  exact ⟨hwrite, hsize, by rw [htrans]; decide, Or.inl ⟨hwait, rfl, haddr⟩⟩

/-- While the first address waits, no data phase has been seen. -/
theorem Burst.eq_zero {b : Bench} {sz : BitVec 3} {inc A : BitVec 32} {j : ℕ}
    (h : Burst b sz inc A j) (hw : b.fsm.rWait = true) : j = 0 := by
  rcases h.pipe with ⟨-, h0, -⟩ | ⟨hw', -⟩
  · exact h0
  · simp [hw] at hw'

/-- The round that ends a loop is its last one. -/
theorem ofNat_eq_last_iff {w j : ℕ} {n : BitVec w} (hj : j < n.toNat + 1) :
    BitVec.ofNat w j = n ↔ j + 1 = n.toNat + 1 := by
  have hn := n.isLt
  constructor
  · intro h
    have := congrArg BitVec.toNat h
    rw [BitVec.toNat_ofNat, Nat.mod_eq_of_lt (by omega)] at this
    omega
  · intro h
    apply BitVec.eq_of_toNat_eq
    rw [BitVec.toNat_ofNat, Nat.mod_eq_of_lt (by omega)]
    omega

/-- The value of a loop counter. -/
theorem toNat_of_idx {w j : ℕ} {i : BitVec w} (hidx : i = BitVec.ofNat w j) (hj : j < 2 ^ w) :
    i.toNat = j := by
  rw [hidx, BitVec.toNat_ofNat, Nat.mod_eq_of_lt hj]

/-- The next round of a loop. -/
theorem idx_succ {w j : ℕ} {i : BitVec w} (hidx : i = BitVec.ofNat w j) :
    i + 1#w = BitVec.ofNat w (j + 1) := by
  rw [hidx, BitVec.ofNat_add]

theorem getLsbD_HTRANS_SEQ : HTRANS_SEQ.getLsbD 1 = true := by decide

/-- A master that drives no transfer drives no write. -/
theorem not_write_of_idle {b : Bench} (ht : b.fsm.htrans = HTRANS_IDLE) :
    b.fsm.htrans.getLsbD 1 = true → b.fsm.hwrite = false := by
  intro h
  rw [ht] at h
  exact absurd h (by decide)

/-! ## Weight loads -/

theorem edge_wtAddr {c : Config} {a : Seq} {b : Bench} {x : BenchIn} (h : Rel c a b)
    (hs : b.fsm.state = .wtAddr) (hq : x.apb.isWrite = false) : Edge c a b x := by
  have hf : (b.step x).fsm = b.fsm.sWtAddr b.dut.cfg := by rw [step_fsm, Fsm.step_of_wtAddr hs]
  rw [Rel, hs] at h
  obtain ⟨hp, hsh, hbuf, ht⟩ := h
  have hmem := effMem_step_of_state b x (by rw [hs]; decide) (not_write_of_idle ht)
  have haddr : b.fsm.wWtAddr b.dut.cfg = c.wtAddr a.cPos := by
    rw [Fsm.wWtAddr, Config.wtAddr, hsh.cfg, hsh.cPos, hsh.patchBytes]
  simp only [Fsm.sWtAddr, haddr, hsh.patchBytes] at hf
  right
  by_cases hpath : c.WordPath a.cPos
  · rw [if_pos (show _ ∧ _ from hpath)] at hf
    refine ⟨?_, by simp [rank, hf, hs], by simp [rank, hf, hs]⟩
    rw [Rel, hf]
    exact ⟨hp, hsh.edge hq hf hmem ⟨hsh.patchBytes.symm, rfl, rfl, rfl, rfl, rfl, rfl⟩
        ⟨rfl, rfl, rfl, rfl⟩, hpath, hbuf.inBuf, 0, Nat.succ_pos _, rfl, hbuf.wtBuf,
      Burst.first hf rfl rfl rfl rfl rfl⟩
  · rw [if_neg (show ¬ (_ ∧ _) from hpath)] at hf
    refine ⟨?_, by simp [rank, hf, hs], by simp [rank, hf, hs]⟩
    rw [Rel, hf]
    refine ⟨hp, hsh.edge hq hf hmem ⟨hsh.patchBytes.symm, rfl, rfl, rfl, rfl, rfl, rfl⟩
        ⟨rfl, rfl, rfl, rfl⟩, hpath, hbuf.inBuf, rfl, rfl, fun _ => ⟨0, Nat.succ_pos _, rfl, ?_,
      Burst.first hf rfl rfl rfl rfl rfl⟩⟩
    rw [loadBytes, Seq.zeroedWt, ← hbuf.wtBuf, ← hsh.patchWords]

theorem sWtDataW_wait (r : Fsm) (d : BitVec 32) (hw : r.rWait = true) :
    r.sWtDataW true d =
      { r with haddr := r.haddr + 4#32, htrans := HTRANS_SEQ, rWait := false } := by
  simp [Fsm.sWtDataW, hw]

theorem sWtDataW_last (r : Fsm) (d : BitVec 32) (hw : r.rWait = false)
    (hl : r.wtWordIdx = r.patchWords - 1#6) :
    r.sWtDataW true d =
      { r with
        wtBuf := r.wtBuf.write r.wtWordIdx.toNat d, htrans := HTRANS_IDLE, state := .biasAddr } := by
  simp [Fsm.sWtDataW, hw, hl]

theorem sWtDataW_next (r : Fsm) (d : BitVec 32) (hw : r.rWait = false)
    (hl : r.wtWordIdx ≠ r.patchWords - 1#6) :
    r.sWtDataW true d =
      { r with
        wtBuf := r.wtBuf.write r.wtWordIdx.toNat d, wtWordIdx := r.wtWordIdx + 1#6
        haddr := r.haddr + 4#32, htrans := HTRANS_SEQ } := by
  simp [Fsm.sWtDataW, hw, hl]

theorem edge_wtDataW {c : Config} {a : Seq} {b : Bench} {x : BenchIn} (h : Rel c a b)
    (hs : b.fsm.state = .wtDataW) (hq : x.apb.isWrite = false) : Edge c a b x := by
  have hf : (b.step x).fsm = b.fsm.sWtDataW x.hready (b.hrdata x) := by
    rw [step_fsm, Fsm.step_of_wtDataW hs]
  cases hr : x.hready with
  | false => exact edge_of_stall h hq hr (by rw [hf, hr]; rfl)
  | true =>
    rw [Rel, hs] at h
    obtain ⟨hp, hsh, hpath, hin, j, hj, hidx, hwt, hb⟩ := h
    have hmem := effMem_step_of_state b x (by rw [hs]; decide) (fun _ => hb.hwrite)
    rw [hr] at hf
    have h64 := c.wordRounds_le
    have htoNat : b.fsm.wtWordIdx.toNat = j := toNat_of_idx hidx (by omega)
    cases hw : b.fsm.rWait with
    | true =>
      rw [sWtDataW_wait _ _ hw] at hf
      have hb' := hb.next hr (by rw [hf]) (by rw [hf]) (by rw [hf]; exact getLsbD_HTRANS_SEQ)
        (by rw [hf]) (by rw [hf])
      obtain rfl := hb.eq_zero hw
      refine Or.inr ⟨?_, by simp [rank, hf, hs, hw], by simp [rank, hf, hs, hw]⟩
      rw [Rel, hf, hs]
      refine ⟨hp, hsh.edge hq hf hmem ⟨rfl, rfl, rfl, rfl, rfl, rfl, rfl⟩ ⟨rfl, rfl, rfl, rfl⟩,
        hpath, hin, 0, hj, hidx, hwt, ?_⟩
      simpa [hw] using hb'
    | false =>
      have hstore : b.fsm.wtBuf.write b.fsm.wtWordIdx.toNat (b.hrdata x) =
          loadWords a.mem (c.wtAddr a.cPos) a.wtBuf (j + 1) := by
        rw [hb.read_word hw hr, htoNat, hwt, hsh.mem]; rfl
      by_cases hl : b.fsm.wtWordIdx = b.fsm.patchWords - 1#6
      · rw [sWtDataW_last _ _ hw hl, hstore] at hf
        have hlast : j + 1 = c.wordRounds := by
          rw [hidx, hsh.patchWords] at hl
          exact (ofNat_eq_last_iff hj).mp hl
        have hstep : a.step c = { a with
            phase := .bias, wtBuf := loadWords a.mem (c.wtAddr a.cPos) a.wtBuf (j + 1) } := by
          simp [Seq.step, hp, Seq.weights, hpath, hlast]
        left
        rw [Rel, hf, hstep]
        exact ⟨rfl, hsh.edge hq hf hmem ⟨rfl, rfl, rfl, rfl, rfl, rfl, rfl⟩ ⟨rfl, rfl, rfl, rfl⟩,
          ⟨by rw [hf]; exact hin, by rw [hf]⟩, rfl⟩
      · rw [sWtDataW_next _ _ hw hl, hstore] at hf
        have hb' := hb.next hr (by rw [hf]) (by rw [hf]) (by rw [hf]; exact getLsbD_HTRANS_SEQ)
          (by rw [hf]; exact hw) (by rw [hf])
        have hlt : j + 1 < c.wordRounds := by
          rw [hidx, hsh.patchWords, ofNat_eq_last_iff hj] at hl
          exact lt_of_le_of_ne hj hl
        have hidx' : b.fsm.wtWordIdx + 1#6 = BitVec.ofNat 6 (j + 1) := by
          rw [hidx, BitVec.ofNat_add]
        have htoNat' : (b.fsm.wtWordIdx + 1#6).toNat = j + 1 := toNat_of_idx hidx' (by omega)
        refine Or.inr ⟨?_, ?_, fun _ => ?_⟩
        · rw [Rel, hf, hs]
          refine ⟨hp, hsh.edge hq hf hmem ⟨rfl, rfl, rfl, rfl, rfl, rfl, rfl⟩ ⟨rfl, rfl, rfl, rfl⟩,
            hpath, hin, j + 1, hlt, hidx', rfl, ?_⟩
          simpa [hw] using hb'
        · simp only [rank, hf, hs, hw, htoNat, htoNat']; omega
        · simp only [rank, hf, hs, hw, htoNat, htoNat']; omega

/-- Low bits of a sum. -/
theorem extractLsb'_add (u v : BitVec 32) :
    (u + v).extractLsb' 0 2 = u.extractLsb' 0 2 + v.extractLsb' 0 2 := by
  apply BitVec.eq_of_toNat_eq
  simp only [BitVec.extractLsb'_toNat, BitVec.toNat_add, Nat.shiftRight_zero]
  omega

theorem sWtData_wait (r : Fsm) (d : BitVec 32) (hw : r.rWait = true) :
    r.sWtData true d =
      { r with haddr := r.haddr + 1#32, htrans := HTRANS_SEQ, rWait := false } := by
  simp [Fsm.sWtData, hw]

theorem sWtData_last (r : Fsm) (d : BitVec 32) (hw : r.rWait = false)
    (hl : r.bufIdx.setWidth 16 = r.patchBytes - 1#16) :
    r.sWtData true d =
      { r with
        wtBuf := r.wtBuf.writeLane (r.bufIdx.extractLsb' 2 5).toNat (r.bufIdx.extractLsb' 0 2)
          (byteLane d (r.rWtLane0 + r.bufIdx.extractLsb' 0 2))
        htrans := HTRANS_IDLE, state := .biasAddr } := by
  simp [Fsm.sWtData, hw, hl]

theorem sWtData_next (r : Fsm) (d : BitVec 32) (hw : r.rWait = false)
    (hl : r.bufIdx.setWidth 16 ≠ r.patchBytes - 1#16) :
    r.sWtData true d =
      { r with
        wtBuf := r.wtBuf.writeLane (r.bufIdx.extractLsb' 2 5).toNat (r.bufIdx.extractLsb' 0 2)
          (byteLane d (r.rWtLane0 + r.bufIdx.extractLsb' 0 2))
        bufIdx := r.bufIdx + 1#7, haddr := r.haddr + 1#32, htrans := HTRANS_SEQ } := by
  simp [Fsm.sWtData, hw, hl]

/-- The 7-bit index never meets a last index it cannot hold, so the byte loop goes on for ever. -/
theorem edge_wtData_hang {c : Config} {a : Seq} {b : Bench} {x : BenchIn} (h : Rel c a b)
    (hs : b.fsm.state = .wtData) (hq : x.apb.isWrite = false) (hends : ¬ c.ByteLoopEnds) :
    Edge c a b x := by
  have hf : (b.step x).fsm = b.fsm.sWtData x.hready (b.hrdata x) := by
    rw [step_fsm, Fsm.step_of_wtData hs]
  cases hr : x.hready with
  | false => exact edge_of_stall h hq hr (by rw [hf, hr]; rfl)
  | true =>
    rw [Rel, hs] at h
    obtain ⟨hp, hsh, hpath, hin, hwr, hlane, -⟩ := h
    have hmem := effMem_step_of_state b x (by rw [hs]; decide) (fun _ => hwr)
    rw [hr] at hf
    have hstep : a.step c = a := by simp [Seq.step, hp, Seq.weights, hpath, hends]
    have hne : b.fsm.bufIdx.setWidth 16 ≠ b.fsm.patchBytes - 1#16 := by
      intro heq
      have := congrArg BitVec.toNat heq
      rw [hsh.patchBytes, BitVec.toNat_setWidth] at this
      have hlt := b.fsm.bufIdx.isLt
      rw [Config.ByteLoopEnds, Config.byteRounds] at hends
      omega
    left
    rw [hstep]
    cases hw : b.fsm.rWait with
    | true =>
      rw [sWtData_wait _ _ hw] at hf
      rw [Rel, hf, hs]
      exact ⟨hp, hsh.edge hq hf hmem ⟨rfl, rfl, rfl, rfl, rfl, rfl, rfl⟩ ⟨rfl, rfl, rfl, rfl⟩,
        hpath, hin, hwr, hlane, fun he => absurd he hends⟩
    | false =>
      rw [sWtData_next _ _ hw hne] at hf
      rw [Rel, hf, hs]
      exact ⟨hp, hsh.edge hq hf hmem ⟨rfl, rfl, rfl, rfl, rfl, rfl, rfl⟩ ⟨rfl, rfl, rfl, rfl⟩,
        hpath, hin, hwr, hlane, fun he => absurd he hends⟩

/-- A byte of the weights is stored into its lane. -/
theorem wtBuf_store {c : Config} {a : Seq} {b : Bench} {x : BenchIn} {j : ℕ} {L : WordBuf}
    (hr : x.hready = true) (hw : b.fsm.rWait = false) (hmem : b.effMem = a.mem)
    (hlane : b.fsm.rWtLane0 = (c.wtAddr a.cPos).extractLsb' 0 2) (htoNat : b.fsm.bufIdx.toNat = j)
    (hwt : b.fsm.wtBuf = loadBytes a.mem (c.wtAddr a.cPos) L j)
    (hb : Burst b HSIZE_BYTE 1#32 (c.wtAddr a.cPos) j) :
    b.fsm.wtBuf.writeLane (b.fsm.bufIdx.extractLsb' 2 5).toNat (b.fsm.bufIdx.extractLsb' 0 2)
      (byteLane (b.hrdata x) (b.fsm.rWtLane0 + b.fsm.bufIdx.extractLsb' 0 2)) =
        loadBytes a.mem (c.wtAddr a.cPos) L (j + 1) := by
  have hlow : b.fsm.bufIdx.extractLsb' 0 2 = BitVec.ofNat 2 j := by
    apply BitVec.eq_of_toNat_eq
    rw [BitVec.extractLsb'_toNat, htoNat, BitVec.toNat_ofNat, Nat.shiftRight_zero]
  have hhigh : (b.fsm.bufIdx.extractLsb' 2 5).toNat = j / 4 := by
    have hlt := b.fsm.bufIdx.isLt
    rw [BitVec.extractLsb'_toNat, htoNat, Nat.shiftRight_eq_div_pow]
    omega
  have hcur : b.fsm.rWtLane0 + b.fsm.bufIdx.extractLsb' 0 2 =
      (c.wtAddr a.cPos + 1#32 * BitVec.ofNat 32 j).extractLsb' 0 2 := by
    rw [extractLsb'_add, hlane, hlow, BitVec.one_mul]
    congr 1
    apply BitVec.eq_of_toNat_eq
    simp only [BitVec.extractLsb'_toNat, BitVec.toNat_ofNat, Nat.shiftRight_zero]
    omega
  rw [hb.read_byte hw hr hcur, hhigh, hlow, hwt, hmem, BitVec.one_mul]
  rfl

theorem edge_wtData {c : Config} {a : Seq} {b : Bench} {x : BenchIn} (h : Rel c a b)
    (hs : b.fsm.state = .wtData) (hq : x.apb.isWrite = false) : Edge c a b x := by
  by_cases hends : c.ByteLoopEnds
  swap
  · exact edge_wtData_hang h hs hq hends
  have hf : (b.step x).fsm = b.fsm.sWtData x.hready (b.hrdata x) := by
    rw [step_fsm, Fsm.step_of_wtData hs]
  cases hr : x.hready with
  | false => exact edge_of_stall h hq hr (by rw [hf, hr]; rfl)
  | true =>
    rw [Rel, hs] at h
    obtain ⟨hp, hsh, hpath, hin, hwr, hlane, hprog⟩ := h
    obtain ⟨j, hj, hidx, hwt, hb⟩ := hprog hends
    have hmem := effMem_step_of_state b x (by rw [hs]; decide) (fun _ => hwr)
    rw [hr] at hf
    have h128 : c.byteRounds ≤ 128 := hends
    have htoNat : b.fsm.bufIdx.toNat = j := toNat_of_idx hidx (by omega)
    cases hw : b.fsm.rWait with
    | true =>
      rw [sWtData_wait _ _ hw] at hf
      have hb' := hb.next hr (by rw [hf]) (by rw [hf]) (by rw [hf]; exact getLsbD_HTRANS_SEQ)
        (by rw [hf]) (by rw [hf])
      obtain rfl := hb.eq_zero hw
      refine Or.inr ⟨?_, by simp [rank, hf, hs, hw], by simp [rank, hf, hs, hw]⟩
      rw [Rel, hf, hs]
      refine ⟨hp, hsh.edge hq hf hmem ⟨rfl, rfl, rfl, rfl, rfl, rfl, rfl⟩ ⟨rfl, rfl, rfl, rfl⟩,
        hpath, hin, hwr, hlane, fun _ => ⟨0, hj, hidx, hwt, ?_⟩⟩
      simpa [hw] using hb'
    | false =>
      have hstore := wtBuf_store hr hw hsh.mem hlane htoNat hwt hb
      have hlast_iff : b.fsm.bufIdx.setWidth 16 = b.fsm.patchBytes - 1#16 ↔
          j + 1 = c.byteRounds := by
        rw [hidx, hsh.patchBytes, BitVec.setWidth_ofNat_of_le_of_lt (by omega) (by omega)]
        exact ofNat_eq_last_iff hj
      by_cases hl : b.fsm.bufIdx.setWidth 16 = b.fsm.patchBytes - 1#16
      · rw [sWtData_last _ _ hw hl, hstore] at hf
        have hlast : j + 1 = c.byteRounds := hlast_iff.mp hl
        have hstep : a.step c = { a with
            phase := .bias
            wtBuf := loadBytes a.mem (c.wtAddr a.cPos) (Seq.zeroedWt c a.wtBuf) (j + 1) } := by
          simp [Seq.step, hp, Seq.weights, hpath, hends, hlast]
        left
        rw [Rel, hf, hstep]
        exact ⟨rfl, hsh.edge hq hf hmem ⟨rfl, rfl, rfl, rfl, rfl, rfl, rfl⟩ ⟨rfl, rfl, rfl, rfl⟩,
          ⟨by rw [hf]; exact hin, by rw [hf]⟩, rfl⟩
      · rw [sWtData_next _ _ hw hl, hstore] at hf
        have hb' := hb.next hr (by rw [hf]) (by rw [hf]) (by rw [hf]; exact getLsbD_HTRANS_SEQ)
          (by rw [hf]; exact hw) (by rw [hf])
        have hlt : j + 1 < c.byteRounds := lt_of_le_of_ne hj (fun he => hl (hlast_iff.mpr he))
        have hidx' : b.fsm.bufIdx + 1#7 = BitVec.ofNat 7 (j + 1) := idx_succ hidx
        have htoNat' : (b.fsm.bufIdx + 1#7).toNat = j + 1 := toNat_of_idx hidx' (by omega)
        refine Or.inr ⟨?_, ?_, fun _ => ?_⟩
        · rw [Rel, hf, hs]
          refine ⟨hp, hsh.edge hq hf hmem ⟨rfl, rfl, rfl, rfl, rfl, rfl, rfl⟩ ⟨rfl, rfl, rfl, rfl⟩,
            hpath, hin, hwr, hlane, fun _ => ⟨j + 1, hlt, hidx', rfl, ?_⟩⟩
          simpa [hw] using hb'
        · simp only [rank, hf, hs, hw, htoNat, htoNat']; omega
        · simp only [rank, hf, hs, hw, htoNat, htoNat']; omega

/-! ## Bias and shift -/

theorem edge_biasAddr {c : Config} {a : Seq} {b : Bench} {x : BenchIn} (h : Rel c a b)
    (hs : b.fsm.state = .biasAddr) (hq : x.apb.isWrite = false) : Edge c a b x := by
  have hf : (b.step x).fsm = b.fsm.sBiasAddr b.dut.cfg := by rw [step_fsm, Fsm.step_of_biasAddr hs]
  rw [Rel, hs] at h
  obtain ⟨hp, hsh, hbuf, ht⟩ := h
  have hmem := effMem_step_of_state b x (by rw [hs]; decide) (not_write_of_idle ht)
  rw [hsh.cfg, Fsm.sBiasAddr, hsh.cPos] at hf
  refine Or.inr ⟨?_, by simp [rank, hf, hs], by simp [rank, hf, hs]⟩
  rw [Rel, hf]
  exact ⟨hp, hsh.edge hq hf hmem ⟨rfl, rfl, rfl, hsh.cPos.symm, rfl, rfl, rfl⟩
      ⟨rfl, rfl, rfl, rfl⟩,
    hbuf.edge hf ⟨rfl, rfl⟩ ⟨rfl, rfl⟩,
    Burst.first hf rfl rfl rfl rfl rfl⟩

theorem edge_biasData {c : Config} {a : Seq} {b : Bench} {x : BenchIn} (h : Rel c a b)
    (hs : b.fsm.state = .biasData) (hq : x.apb.isWrite = false) : Edge c a b x := by
  have hf : (b.step x).fsm = b.fsm.sBiasData b.dut.cfg x.hready (b.hrdata x) := by
    rw [step_fsm, Fsm.step_of_biasData hs]
  cases hr : x.hready with
  | false => exact edge_of_stall h hq hr (by rw [hf, hr]; rfl)
  | true =>
    rw [Rel, hs] at h
    obtain ⟨hp, hsh, hbuf, hb⟩ := h
    have hmem := effMem_step_of_state b x (by rw [hs]; decide) (fun _ => hb.hwrite)
    rw [hr, hsh.cfg] at hf
    -- the first ready edge only accepts the address
    cases hw : b.fsm.rWait with
    | true =>
      have hf' : (b.step x).fsm = { b.fsm with rWait := false } := by
        rw [hf]; simp [Fsm.sBiasData, hw]
      have hb' := hb.next hr (by rw [hf']) (by rw [hf']) (by rw [hf']; exact hb.htrans)
        (by rw [hf']) (by rw [hf']; simp)
      refine Or.inr ⟨?_, by simp [rank, hf', hs, hw], by simp [rank, hf', hs, hw]⟩
      rw [Rel, hf', hs]
      refine ⟨hp, hsh.edge hq hf' hmem ⟨rfl, rfl, rfl, rfl, rfl, rfl, rfl⟩ ⟨rfl, rfl, rfl, rfl⟩,
        hbuf.edge hf' ⟨rfl, rfl⟩ ⟨rfl, rfl⟩, ?_⟩
      simpa [hw] using hb'
    | false =>
      have hword : b.hrdata x = a.mem.word (c.biasAddr a.cPos) := by
        rw [hb.read_word hw hr, hsh.mem]; simp
      simp only [Fsm.sBiasData, hw, hword, hsh.cPos, if_true, Bool.false_eq_true, if_false] at hf
      have hstep : a.step c = a.bias c := Seq.step_of_bias hp
      left
      rw [Rel, hf, hstep]
      refine ⟨rfl, hsh.edge hq hf hmem ⟨rfl, rfl, rfl, hsh.cPos.symm, rfl, rfl, rfl⟩
          ⟨rfl, rfl, rfl, rfl⟩,
        hbuf.edge hf ⟨rfl, rfl⟩ ⟨rfl, rfl⟩, rfl, ?_,
        Burst.first hf rfl rfl rfl rfl rfl⟩
      rw [Seq.bias, Config.shiftAddr, extractLsb'_add]
      congr 1

theorem edge_shiftData {c : Config} {a : Seq} {b : Bench} {x : BenchIn} (h : Rel c a b)
    (hs : b.fsm.state = .shiftData) (hq : x.apb.isWrite = false) : Edge c a b x := by
  have hf : (b.step x).fsm = b.fsm.sShiftData x.hready (b.hrdata x) := by
    rw [step_fsm, Fsm.step_of_shiftData hs]
  cases hr : x.hready with
  | false => exact edge_of_stall h hq hr (by rw [hf, hr]; rfl)
  | true =>
    rw [Rel, hs] at h
    obtain ⟨hp, hsh, hbuf, hbias, hlane, hb⟩ := h
    have hmem := effMem_step_of_state b x (by rw [hs]; decide) (fun _ => hb.hwrite)
    rw [hr] at hf
    -- the first ready edge only accepts the address
    cases hw : b.fsm.rWait with
    | true =>
      have hf' : (b.step x).fsm = { b.fsm with rWait := false } := by
        rw [hf]; simp [Fsm.sShiftData, hw]
      have hb' := hb.next hr (by rw [hf']) (by rw [hf']) (by rw [hf']; exact hb.htrans)
        (by rw [hf']) (by rw [hf']; simp)
      refine Or.inr ⟨?_, by simp [rank, hf', hs, hw], by simp [rank, hf', hs, hw]⟩
      rw [Rel, hf', hs]
      refine ⟨hp, hsh.edge hq hf' hmem ⟨rfl, rfl, rfl, rfl, rfl, rfl, rfl⟩ ⟨rfl, rfl, rfl, rfl⟩,
        hbuf.edge hf' ⟨rfl, rfl⟩ ⟨rfl, rfl⟩, hbias, hlane, ?_⟩
      simpa [hw] using hb'
    | false =>
      have hbyte : byteLane (b.hrdata x) b.fsm.rShiftLane = a.mem (c.shiftAddr a.cPos) := by
        rw [hb.read_byte hw hr (by simpa using hlane), hsh.mem]; simp
      simp only [Fsm.sShiftData, hw, hbyte, if_true, Bool.false_eq_true, if_false] at hf
      have hstep : a.step c = a.shift c := Seq.step_of_shift hp
      left
      rw [Rel, hf, hstep]
      exact ⟨rfl, hsh.edge hq hf hmem ⟨rfl, rfl, rfl, rfl, rfl, rfl, rfl⟩ ⟨rfl, rfl, rfl, rfl⟩,
        hbuf.edge hf ⟨rfl, rfl⟩ ⟨rfl, rfl⟩,
        ⟨by rw [hf]; exact hbias, by rw [hf]; rfl⟩, rfl, rfl⟩

/-! ## Input loads -/

theorem edge_inAddr {c : Config} {a : Seq} {b : Bench} {x : BenchIn} (h : Rel c a b)
    (hs : b.fsm.state = .inAddr) (hq : x.apb.isWrite = false) : Edge c a b x := by
  have hf : (b.step x).fsm = b.fsm.sInAddr b.dut.cfg := by rw [step_fsm, Fsm.step_of_inAddr hs]
  rw [Rel, hs] at h
  obtain ⟨hp, hsh, hbuf, hcoef, hacc, ht⟩ := h
  have hmem := effMem_step_of_state b x (by rw [hs]; decide) (not_write_of_idle ht)
  rw [hsh.cfg, Fsm.sInAddr] at hf
  refine Or.inr ⟨?_, by simp [rank, hf, hs], by simp [rank, hf, hs]⟩
  rw [Rel, hf]
  refine ⟨hp, hsh.edge hq hf hmem ⟨rfl, rfl, rfl, rfl, rfl, rfl, rfl⟩ ⟨rfl, rfl, rfl, rfl⟩,
    hbuf.wtBuf, hcoef.edge hf ⟨rfl, rfl⟩ ⟨rfl, rfl⟩, hacc,
    0, Nat.succ_pos _, by rw [hf]; rfl, ?_, Burst.first hf rfl rfl rfl rfl ?_⟩
  · rw [hf, loadWords, Function.update_eq_self]
    exact hbuf.inBuf
  · rw [Config.patchAddr, hsh.wPos]

/-- Storing a word into buffer `s`, as both load loops do it. -/
theorem inBuf_store {r : Fsm} (r' : Fsm) {f : Bool → WordBuf} {s : Bool} {L : WordBuf} (i : ℕ)
    {d : BitVec 32} (h : r.inBuf = Function.update f s L)
    (h0 : r'.inBuf0 = if s then r.inBuf0 else r.inBuf0.write i d)
    (h1 : r'.inBuf1 = if s then r.inBuf1.write i d else r.inBuf1) :
    r'.inBuf = Function.update f s (L.write i d) := by
  funext t
  have ht := congrFun h t
  have hs := congrFun h s
  cases s <;> cases t <;> simp_all [Fsm.inBuf]

theorem sInData_wait (c : Config) (r : Fsm) (d : BitVec 32) (hw : r.rWait = true) :
    r.sInData c true d =
      { r with haddr := r.haddr + 4#32, htrans := HTRANS_SEQ, rWait := false } := by
  simp [Fsm.sInData, hw]

theorem sInData_next (c : Config) (r : Fsm) (d : BitVec 32) (hw : r.rWait = false)
    (hl : r.bufIdx ≠ r.patchWords.setWidth 7 - 1#7) :
    r.sInData c true d =
      { r with
        inBuf0 := if r.bufSel then r.inBuf0 else r.inBuf0.write r.bufIdx.toNat d
        inBuf1 := if r.bufSel then r.inBuf1.write r.bufIdx.toNat d else r.inBuf1
        bufIdx := r.bufIdx + 1#7, haddr := r.haddr + 4#32, htrans := HTRANS_SEQ } := by
  cases hb : r.bufSel <;> simp [Fsm.sInData, hw, hl, hb]

theorem sInData_ovlp (c : Config) (r : Fsm) (d : BitVec 32) (hw : r.rWait = false)
    (hl : r.bufIdx = r.patchWords.setWidth 7 - 1#7) (ho : 1#16 < r.wOutCnt) :
    r.sInData c true d =
      { r with
        inBuf0 := if r.bufSel then r.inBuf0 else r.inBuf0.write r.bufIdx.toNat d
        inBuf1 := if r.bufSel then r.inBuf1.write r.bufIdx.toNat d else r.inBuf1
        macIdx := 0, haddr := c.rSrcAddr + c.patchStep, htrans := HTRANS_NONSEQ
        hburst := HBURST_INCR, hsize := HSIZE_WORD, hwrite := false, bufIdx := 0
        rWait := true, macDone := false, loadDone := false, state := .macOvlp } := by
  cases hb : r.bufSel <;> simp [Fsm.sInData, hw, hl, hb, ho]

theorem sInData_mac (c : Config) (r : Fsm) (d : BitVec 32) (hw : r.rWait = false)
    (hl : r.bufIdx = r.patchWords.setWidth 7 - 1#7) (ho : ¬ 1#16 < r.wOutCnt) :
    r.sInData c true d =
      { r with
        inBuf0 := if r.bufSel then r.inBuf0 else r.inBuf0.write r.bufIdx.toNat d
        inBuf1 := if r.bufSel then r.inBuf1.write r.bufIdx.toNat d else r.inBuf1
        macIdx := 0, htrans := HTRANS_IDLE, state := .mac } := by
  cases hb : r.bufSel <;> simp [Fsm.sInData, hw, hl, hb, ho]

/-- The last word of a patch: the overlapped phase is entered when a further patch is there to
load. -/
theorem rel_inData_last {c : Config} {a : Seq} {b : Bench} {x : BenchIn} {j : ℕ}
    (hq : x.apb.isWrite = false) (hw : b.fsm.rWait = false) (hp : a.phase = .input)
    (hsh : Shared c a b) (hwt : b.fsm.wtBuf = a.wtBuf) (hcoef : SameCoef a b)
    (hacc : b.fsm.acc = a.acc) (htoNat : b.fsm.bufIdx.toNat = j) (hlast : c.loadRounds = j + 1)
    (hl : b.fsm.bufIdx = b.fsm.patchWords.setWidth 7 - 1#7)
    (hin : b.fsm.inBuf = Function.update a.inBuf a.bufSel
      (loadWords a.mem (c.patchAddr a.wPos) (a.inBuf a.bufSel) j))
    (hmem : (b.step x).effMem = b.effMem)
    (hf : (b.step x).fsm = b.fsm.sInData c true
      (a.mem.word (c.patchAddr a.wPos + 4#32 * BitVec.ofNat 32 j))) :
    Rel c (a.step c) (b.step x) := by
  by_cases ho : 1#16 < c.wOutCnt
  · rw [sInData_ovlp _ _ _ hw hl (by rw [hsh.wOutCnt]; exact ho), hsh.bufSel, htoNat] at hf
    have hstep : a.step c = { a with
        inBuf := Function.update a.inBuf a.bufSel
          (loadWords a.mem (c.patchAddr a.wPos) (a.inBuf a.bufSel) (j + 1))
        loadAddr := c.rSrcAddr + c.patchStep, phase := .ovlp } := by
      simp [Seq.step, hp, Seq.input, ho, hlast]
    have hin' := inBuf_store (b.step x).fsm j hin (by rw [hf]) (by rw [hf])
    rw [Rel, hf, hstep]
    refine ⟨rfl, hsh.edge hq hf hmem ⟨rfl, rfl, rfl, rfl, rfl, hsh.bufSel.symm, rfl⟩
        ⟨rfl, rfl, rfl, rfl⟩, hwt,
      hcoef.edge hf ⟨rfl, rfl⟩ ⟨rfl, rfl⟩,
      Or.inl ⟨rfl, 0, Nat.succ_pos _, rfl, ?_⟩,
      Or.inl ⟨by rw [hf], 0, Nat.succ_pos _, by rw [hf]; rfl, ?_,
        Burst.first hf rfl rfl rfl rfl rfl⟩⟩
    · simpa [macSum] using hacc
    · rw [loadWords, Function.update_eq_self]
      exact hin'
  · rw [sInData_mac _ _ _ hw hl (by rw [hsh.wOutCnt]; exact ho), hsh.bufSel, htoNat] at hf
    have hstep : a.step c = { a with
        inBuf := Function.update a.inBuf a.bufSel
          (loadWords a.mem (c.patchAddr a.wPos) (a.inBuf a.bufSel) (j + 1))
        loadAddr := c.rSrcAddr + c.patchStep, phase := .mac } := by
      simp [Seq.step, hp, Seq.input, ho, hlast]
    have hin' := inBuf_store (b.step x).fsm j hin (by rw [hf]) (by rw [hf])
    rw [Rel, hf, hstep]
    refine ⟨rfl, hsh.edge hq hf hmem ⟨rfl, rfl, rfl, rfl, rfl, hsh.bufSel.symm, rfl⟩
        ⟨rfl, rfl, rfl, rfl⟩, ⟨hin', by rw [hf]; exact hwt⟩,
      hcoef.edge hf ⟨rfl, rfl⟩ ⟨rfl, rfl⟩,
      ⟨0, Nat.succ_pos _, rfl, ?_⟩, rfl⟩
    simpa [macSum] using hacc

theorem edge_inData {c : Config} {a : Seq} {b : Bench} {x : BenchIn} (h : Rel c a b)
    (hs : b.fsm.state = .inData) (hq : x.apb.isWrite = false) : Edge c a b x := by
  have hf : (b.step x).fsm = b.fsm.sInData b.dut.cfg x.hready (b.hrdata x) := by
    rw [step_fsm, Fsm.step_of_inData hs]
  cases hr : x.hready with
  | false => exact edge_of_stall h hq hr (by rw [hf, hr]; rfl)
  | true =>
    rw [Rel, hs] at h
    obtain ⟨hp, hsh, hwt, hcoef, hacc, j, hj, hidx, hin, hb⟩ := h
    have hmem := effMem_step_of_state b x (by rw [hs]; decide) (fun _ => hb.hwrite)
    rw [hr, hsh.cfg] at hf
    have h128 := c.loadRounds_le
    have htoNat : b.fsm.bufIdx.toNat = j := toNat_of_idx hidx (by omega)
    cases hw : b.fsm.rWait with
    | true =>
      rw [sInData_wait _ _ _ hw] at hf
      have hb' := hb.next hr (by rw [hf]) (by rw [hf]) (by rw [hf]; exact getLsbD_HTRANS_SEQ)
        (by rw [hf]) (by rw [hf])
      obtain rfl := hb.eq_zero hw
      refine Or.inr ⟨?_, by simp [rank, hf, hs, hw], by simp [rank, hf, hs, hw]⟩
      rw [Rel, hf, hs]
      refine ⟨hp, hsh.edge hq hf hmem ⟨rfl, rfl, rfl, rfl, rfl, rfl, rfl⟩ ⟨rfl, rfl, rfl, rfl⟩,
        hwt, hcoef.edge hf ⟨rfl, rfl⟩ ⟨rfl, rfl⟩, hacc, 0, hj,
        by rw [hf]; exact hidx, by rw [hf]; exact hin, ?_⟩
      simpa [hw] using hb'
    | false =>
      have hword : b.hrdata x = a.mem.word (c.patchAddr a.wPos + 4#32 * BitVec.ofNat 32 j) := by
        rw [hb.read_word hw hr, hsh.mem]
      rw [hword] at hf
      -- the last word of the patch ends the phase; any other one is counted
      by_cases hl : b.fsm.bufIdx = b.fsm.patchWords.setWidth 7 - 1#7
      · have hlast : c.loadRounds = j + 1 := by
          rw [hidx, hsh.patchWords] at hl
          exact ((ofNat_eq_last_iff hj).mp hl).symm
        exact Or.inl (rel_inData_last hq hw hp hsh hwt hcoef hacc htoNat hlast hl hin hmem hf)
      · rw [sInData_next _ _ _ hw hl, hsh.bufSel] at hf
        have hin' := inBuf_store (b.step x).fsm j hin (by rw [hf, htoNat])
          (by rw [hf, htoNat])
        have hb' := hb.next hr (by rw [hf]) (by rw [hf]) (by rw [hf]; exact getLsbD_HTRANS_SEQ)
          (by rw [hf]; exact hw) (by rw [hf])
        have hlt : j + 1 < c.loadRounds := by
          rw [hidx, hsh.patchWords, ofNat_eq_last_iff hj] at hl
          exact lt_of_le_of_ne hj hl
        have hidx' : b.fsm.bufIdx + 1#7 = BitVec.ofNat 7 (j + 1) := idx_succ hidx
        have htoNat' : (b.fsm.bufIdx + 1#7).toNat = j + 1 := toNat_of_idx hidx' (by omega)
        refine Or.inr ⟨?_, ?_, fun _ => ?_⟩
        · rw [Rel, hf, hs]
          refine ⟨hp, hsh.edge hq hf hmem ⟨rfl, rfl, rfl, rfl, rfl, hsh.bufSel.symm, rfl⟩
              ⟨rfl, rfl, rfl, rfl⟩, hwt,
            hcoef.edge hf ⟨rfl, rfl⟩ ⟨rfl, rfl⟩, hacc, j + 1, hlt,
            by rw [hf]; exact hidx', hin', ?_⟩
          simpa [hw] using hb'
        · simp only [rank, hf, hs, hw, htoNat, htoNat']; omega
        · simp only [rank, hf, hs, hw, htoNat, htoNat']; omega

/-! ## Multiply loops -/

/-- The word under `mac_idx` in the active buffer. -/
theorem macInWord_eq (r : Fsm) : r.macInWord = r.inBuf r.bufSel r.macIdx := by
  cases h : r.bufSel <;> simp [Fsm.macInWord, Fsm.inBuf, h]

/-- One round of the multiply loop adds one word product. -/
theorem macSum_round {a : Seq} {r : Fsm} {m : ℕ} (hidx : r.macIdx = BitVec.ofNat 6 m)
    (hacc : r.acc = a.acc + macSum (a.inBuf a.bufSel) a.wtBuf m)
    (hsel : r.inBuf r.bufSel = a.inBuf a.bufSel) (hwt : r.wtBuf = a.wtBuf) :
    r.acc + mac4 r.macInWord (r.wtBuf r.macIdx) =
      a.acc + macSum (a.inBuf a.bufSel) a.wtBuf (m + 1) := by
  rw [macInWord_eq, hsel, hwt, hidx, hacc, macSum, BitVec.add_assoc]

theorem edge_mac {c : Config} {a : Seq} {b : Bench} {x : BenchIn} (h : Rel c a b)
    (hs : b.fsm.state = .mac) (hq : x.apb.isWrite = false) : Edge c a b x := by
  have hf : (b.step x).fsm = b.fsm.sMac := by rw [step_fsm, Fsm.step_of_mac hs]
  rw [Rel, hs] at h
  obtain ⟨hp, hsh, hbuf, hcoef, ⟨m, hm, hidx, hacc⟩, ht⟩ := h
  have hmem := effMem_step_of_state b x (by rw [hs]; decide) (not_write_of_idle ht)
  have hround := macSum_round hidx hacc (by rw [hbuf.inBuf, hsh.bufSel]) hbuf.wtBuf
  have h64 := c.wordRounds_le
  have htoNat : b.fsm.macIdx.toNat = m := toNat_of_idx hidx (by omega)
  by_cases hl : b.fsm.macIdx = b.fsm.patchWords - 1#6
  · simp only [Fsm.sMac, if_pos hl, hround] at hf
    have hlast : m + 1 = c.wordRounds := by
      rw [hidx, hsh.patchWords] at hl
      exact (ofNat_eq_last_iff hm).mp hl
    have hstep : a.step c = a.mac c := Seq.step_of_mac hp
    left
    rw [Rel, hf, hstep]
    exact ⟨rfl, hsh.edge hq hf hmem ⟨rfl, rfl, rfl, rfl, rfl, rfl, rfl⟩ ⟨rfl, rfl, rfl, rfl⟩,
      hbuf.edge hf ⟨rfl, rfl⟩ ⟨rfl, rfl⟩,
      hcoef.edge hf ⟨rfl, rfl⟩ ⟨rfl, rfl⟩,
      by rw [Seq.mac, Seq.macAcc, ← hlast], rfl⟩
  · simp only [Fsm.sMac, if_neg hl, hround] at hf
    have hlt : m + 1 < c.wordRounds := by
      rw [hidx, hsh.patchWords, ofNat_eq_last_iff hm] at hl
      exact lt_of_le_of_ne hm hl
    have hidx' : b.fsm.macIdx + 1#6 = BitVec.ofNat 6 (m + 1) := idx_succ hidx
    have htoNat' : (b.fsm.macIdx + 1#6).toNat = m + 1 := toNat_of_idx hidx' (by omega)
    refine Or.inr ⟨?_, ?_, fun _ => ?_⟩
    · rw [Rel, hf, hs]
      exact ⟨hp, hsh.edge hq hf hmem ⟨rfl, rfl, rfl, rfl, rfl, rfl, rfl⟩ ⟨rfl, rfl, rfl, rfl⟩,
        hbuf.edge hf ⟨rfl, rfl⟩ ⟨rfl, rfl⟩,
        hcoef.edge hf ⟨rfl, rfl⟩ ⟨rfl, rfl⟩,
        ⟨m + 1, hlt, hidx', rfl⟩, rfl⟩
    · simp only [rank, hf, hs, htoNat, htoNat']; omega
    · simp only [rank, hf, hs, htoNat, htoNat']; omega

/-- The multiply half makes its round, or is done and stays done. -/
theorem macHalf_step {c : Config} {a : Seq} {r : Fsm} (h : MacHalf c a r)
    (hpw : r.patchWords = c.patchWords) (hsel : r.inBuf r.bufSel = a.inBuf a.bufSel)
    (hwt : r.wtBuf = a.wtBuf) :
    MacHalf c a r.sMacOvlpMac ∧ macRank r.sMacOvlpMac ≤ macRank r ∧
      (r.macDone = false → macRank r.sMacOvlpMac < macRank r) := by
  rcases h with ⟨hmd, m, hm, hidx, hacc⟩ | ⟨hmd, hacc⟩
  · have h64 := c.wordRounds_le
    have htoNat : r.macIdx.toNat = m := toNat_of_idx hidx (by omega)
    have hround := macSum_round hidx hacc hsel hwt
    by_cases hl : r.macIdx = r.patchWords - 1#6
    · have hlast : m + 1 = c.wordRounds := by
        rw [hidx, hpw] at hl
        exact (ofNat_eq_last_iff hm).mp hl
      have heq : r.sMacOvlpMac =
          { r with acc := r.acc + mac4 r.macInWord (r.wtBuf r.macIdx), macDone := true } := by
        simp [Fsm.sMacOvlpMac, hmd, hl]
      rw [heq]
      refine ⟨Or.inr ⟨rfl, by rw [hround, Seq.macAcc, hlast]⟩, by simp [macRank], fun _ => ?_⟩
      simp only [macRank, hmd, htoNat]
      simp only [if_true, Bool.false_eq_true, if_false]
      omega
    · have hlt : m + 1 < c.wordRounds := by
        rw [hidx, hpw, ofNat_eq_last_iff hm] at hl
        exact lt_of_le_of_ne hm hl
      have hidx' : r.macIdx + 1#6 = BitVec.ofNat 6 (m + 1) := idx_succ hidx
      have htoNat' : (r.macIdx + 1#6).toNat = m + 1 := toNat_of_idx hidx' (by omega)
      have heq : r.sMacOvlpMac =
          { r with
            acc := r.acc + mac4 r.macInWord (r.wtBuf r.macIdx), macIdx := r.macIdx + 1#6 } := by
        simp [Fsm.sMacOvlpMac, hmd, hl]
      rw [heq]
      refine ⟨Or.inl ⟨hmd, m + 1, hlt, hidx', hround⟩, ?_, fun _ => ?_⟩
      all_goals
        simp only [macRank, hmd, htoNat, htoNat', Bool.false_eq_true, if_false]
        omega
  · have heq : r.sMacOvlpMac = r := by simp [Fsm.sMacOvlpMac, hmd]
    rw [heq]
    exact ⟨Or.inr ⟨hmd, hacc⟩, le_rfl, by simp [hmd]⟩

theorem sMacOvlpLoad_idle (r : Fsm) (hready : Bool) (d : BitVec 32)
    (h : r.loadDone = true ∨ hready = false) : r.sMacOvlpLoad hready d = r := by
  rcases h with h | h <;> simp [Fsm.sMacOvlpLoad, h]

theorem sMacOvlpLoad_wait (r : Fsm) (d : BitVec 32) (hl : r.loadDone = false)
    (hw : r.rWait = true) :
    r.sMacOvlpLoad true d =
      { r with haddr := r.haddr + 4#32, htrans := HTRANS_SEQ, rWait := false } := by
  simp [Fsm.sMacOvlpLoad, hl, hw]

theorem sMacOvlpLoad_last (r : Fsm) (d : BitVec 32) (hl : r.loadDone = false)
    (hw : r.rWait = false) (he : r.bufIdx = r.patchWords.setWidth 7 - 1#7) :
    r.sMacOvlpLoad true d =
      { r with
        inBuf0 := if !r.bufSel then r.inBuf0 else r.inBuf0.write r.bufIdx.toNat d
        inBuf1 := if !r.bufSel then r.inBuf1.write r.bufIdx.toNat d else r.inBuf1
        loadDone := true, htrans := HTRANS_IDLE } := by
  cases hb : r.bufSel <;> simp [Fsm.sMacOvlpLoad, hl, hw, he, hb]

theorem sMacOvlpLoad_next (r : Fsm) (d : BitVec 32) (hl : r.loadDone = false)
    (hw : r.rWait = false) (he : r.bufIdx ≠ r.patchWords.setWidth 7 - 1#7) :
    r.sMacOvlpLoad true d =
      { r with
        inBuf0 := if !r.bufSel then r.inBuf0 else r.inBuf0.write r.bufIdx.toNat d
        inBuf1 := if !r.bufSel then r.inBuf1.write r.bufIdx.toNat d else r.inBuf1
        bufIdx := r.bufIdx + 1#7, haddr := r.haddr + 4#32, htrans := HTRANS_SEQ } := by
  cases hb : r.bufSel <;> simp [Fsm.sMacOvlpLoad, hl, hw, he, hb]

/-- The load half stalls, makes its round, or is done and stays done. -/
theorem loadHalf_step {c : Config} {a : Seq} {b : Bench} {x : BenchIn} (h : LoadHalf c a b)
    (hsh : Shared c a b) (hf : (b.step x).fsm = b.fsm.sMacOvlp x.hready (b.hrdata x)) :
    LoadHalf c a (b.step x) ∧ loadRank (b.step x).fsm ≤ loadRank b.fsm ∧
      (b.fsm.loadDone = false → x.hready = true →
        loadRank (b.step x).fsm < loadRank b.fsm) := by
  rw [sMacOvlp_eq] at hf
  rcases h with ⟨hld, j, hj, hidx, hin, hb⟩ | ⟨hld, ht, hin⟩
  swap
  · rw [sMacOvlpLoad_idle _ _ _ (Or.inl hld)] at hf
    exact ⟨Or.inr ⟨by rw [hf]; exact hld, by rw [hf]; exact ht, by rw [hf]; exact hin⟩,
      by simp [loadRank, hf, hld], by simp [hld]⟩
  cases hr : x.hready with
  | false =>
    rw [sMacOvlpLoad_idle _ _ _ (Or.inr hr)] at hf
    have hslave := step_slave_stall b hr
    have hb' : Burst (b.step x) HSIZE_WORD 4#32 a.loadAddr j := by
      refine ⟨by rw [hf]; exact hb.hwrite, by rw [hf]; exact hb.hsize, by rw [hf]; exact hb.htrans,
        ?_⟩
      rw [hf, hslave]
      exact hb.pipe
    exact ⟨Or.inl ⟨by rw [hf]; exact hld, j, hj, by rw [hf]; exact hidx, by rw [hf]; exact hin, hb'⟩,
      by simp [loadRank, hf], by simp⟩
  | true =>
    have h128 := c.loadRounds_le
    have htoNat : b.fsm.bufIdx.toNat = j := toNat_of_idx hidx (by omega)
    rw [hr] at hf
    cases hw : b.fsm.rWait with
    | true =>
      rw [sMacOvlpLoad_wait _ _ hld hw] at hf
      have hb' := hb.next hr (by rw [hf]) (by rw [hf]) (by rw [hf]; exact getLsbD_HTRANS_SEQ)
        (by rw [hf]) (by rw [hf])
      obtain rfl := hb.eq_zero hw
      refine ⟨Or.inl ⟨by rw [hf]; exact hld, 0, hj, by rw [hf]; exact hidx, by rw [hf]; exact hin,
        ?_⟩, ?_, fun _ _ => ?_⟩
      · simpa [hw] using hb'
      · simp [loadRank, hf, hld, hw]
      · simp [loadRank, hf, hld, hw]
    | false =>
      have hword : b.hrdata x = a.mem.word (a.loadAddr + 4#32 * BitVec.ofNat 32 j) := by
        rw [hb.read_word hw hr, hsh.mem]
      rw [hword] at hf
      by_cases hl : b.fsm.bufIdx = b.fsm.patchWords.setWidth 7 - 1#7
      · have hlast : c.loadRounds = j + 1 := by
          rw [hidx, hsh.patchWords] at hl
          exact ((ofNat_eq_last_iff hj).mp hl).symm
        rw [sMacOvlpLoad_last _ _ hld hw hl, hsh.bufSel, htoNat] at hf
        have hin' := inBuf_store (b.step x).fsm j hin (by rw [hf]) (by rw [hf])
        refine ⟨Or.inr ⟨by rw [hf], by rw [hf], by rw [hlast]; exact hin'⟩, ?_, fun _ _ => ?_⟩
        · simp [loadRank, hf]
        · simp only [loadRank, hf, hld, htoNat, if_true, Bool.false_eq_true, if_false]
          omega
      · rw [sMacOvlpLoad_next _ _ hld hw hl, hsh.bufSel] at hf
        have hin' := inBuf_store (b.step x).fsm j hin (by rw [hf, htoNat])
          (by rw [hf, htoNat])
        have hb' := hb.next hr (by rw [hf]) (by rw [hf]) (by rw [hf]; exact getLsbD_HTRANS_SEQ)
          (by rw [hf]; exact hw) (by rw [hf])
        have hlt : j + 1 < c.loadRounds := by
          rw [hidx, hsh.patchWords, ofNat_eq_last_iff hj] at hl
          exact lt_of_le_of_ne hj hl
        have hidx' : b.fsm.bufIdx + 1#7 = BitVec.ofNat 7 (j + 1) := idx_succ hidx
        have htoNat' : (b.fsm.bufIdx + 1#7).toNat = j + 1 := toNat_of_idx hidx' (by omega)
        refine ⟨Or.inl ⟨by rw [hf]; exact hld, j + 1, hlt, by rw [hf]; exact hidx', hin', ?_⟩, ?_,
          fun _ _ => ?_⟩
        · simpa [hw] using hb'
        all_goals
          simp only [loadRank, hf, hld, hw, htoNat, htoNat', Bool.false_eq_true, if_false]
          omega

theorem edge_macOvlp {c : Config} {a : Seq} {b : Bench} {x : BenchIn} (h : Rel c a b)
    (hs : b.fsm.state = .macOvlp) (hq : x.apb.isWrite = false) : Edge c a b x := by
  have hf : (b.step x).fsm = b.fsm.sMacOvlp x.hready (b.hrdata x) := by
    rw [step_fsm, Fsm.step_of_macOvlp hs]
  rw [Rel, hs] at h
  obtain ⟨hp, hsh, hwt, hcoef, hmac, hload⟩ := h
  have hwr : b.fsm.htrans.getLsbD 1 = true → b.fsm.hwrite = false := by
    rcases hload with ⟨-, _, _, _, _, hb⟩ | ⟨-, ht, -⟩
    · exact fun _ => hb.hwrite
    · exact not_write_of_idle ht
  have hmem := effMem_step_of_state b x (by rw [hs]; decide) hwr
  -- the load half never touches the buffer the multiply half reads
  have hsel : b.fsm.inBuf b.fsm.bufSel = a.inBuf a.bufSel := by
    have hne : a.bufSel ≠ !a.bufSel := by cases a.bufSel <;> decide
    rcases hload with ⟨-, _, _, _, hin, _⟩ | ⟨-, -, hin⟩ <;>
      rw [hin, hsh.bufSel, Function.update_of_ne hne]
  obtain ⟨hmac', hmle, hmlt⟩ := macHalf_step hmac hsh.patchWords hsel hwt
  obtain ⟨hload', hlle, hllt⟩ := loadHalf_step hload hsh hf
  have hf' := hf
  rw [sMacOvlp_eq] at hf'
  by_cases hdone : (b.fsm.macDone && b.fsm.loadDone) = true
  · -- both halves were done before the edge: leave for `S_WRITE_ADDR`
    rw [if_pos hdone] at hf'
    obtain ⟨hmd, hld⟩ := Bool.and_eq_true _ _ ▸ hdone
    have hacc : b.fsm.acc = a.macAcc c := by
      rcases hmac with ⟨hmd', -⟩ | ⟨-, hacc⟩
      · simp [hmd] at hmd'
      · exact hacc
    have hidle : b.fsm.htrans = HTRANS_IDLE ∧ b.fsm.inBuf = Function.update a.inBuf (!a.bufSel)
        (loadWords a.mem a.loadAddr (a.inBuf (!a.bufSel)) c.loadRounds) := by
      rcases hload with ⟨hld', -⟩ | ⟨-, hi⟩
      · simp [hld] at hld'
      · exact hi
    rw [sMacOvlpLoad_idle _ _ _ (Or.inl hld), show b.fsm.sMacOvlpMac = b.fsm by
      simp [Fsm.sMacOvlpMac, hmd]] at hf'
    have hstep : a.step c = a.ovlp c := Seq.step_of_ovlp hp
    left
    rw [Rel, hf', hstep]
    exact ⟨rfl, hsh.edge hq hf' hmem ⟨rfl, rfl, rfl, rfl, rfl, rfl, rfl⟩ ⟨rfl, rfl, rfl, rfl⟩,
      ⟨by rw [hf']; exact hidle.2, by rw [hf']; exact hwt⟩,
      hcoef.edge hf' ⟨rfl, rfl⟩ ⟨rfl, rfl⟩, hacc, hidle.1⟩
  · rw [if_neg hdone] at hf'
    have hst : (b.step x).fsm.state = .macOvlp := by rw [hf']; exact hs
    have hmr : macRank (b.step x).fsm = macRank b.fsm.sMacOvlpMac := by rw [hf']; rfl
    refine Or.inr ⟨?_, ?_, fun hr => ?_⟩
    · rw [Rel, hst]
      refine ⟨hp, hsh.edge hq hf' hmem ⟨rfl, rfl, rfl, rfl, rfl, rfl, rfl⟩ ⟨rfl, rfl, rfl, rfl⟩,
        by rw [hf']; exact hwt,
        hcoef.edge hf' ⟨rfl, rfl⟩ ⟨rfl, rfl⟩, ?_, hload'⟩
      rw [hf']
      exact hmac'
    · simp only [rank, hst, hs, hmr]
      omega
    · simp only [rank, hst, hs, hmr]
      rcases Bool.eq_false_or_eq_true b.fsm.macDone with hmd | hmd
      · have hld : b.fsm.loadDone = false := by simpa [hmd] using hdone
        have := hllt hld hr
        omega
      · have := hmlt hmd
        omega

/-! ## The output write -/

theorem edge_writeAddr {c : Config} {a : Seq} {b : Bench} {x : BenchIn} (h : Rel c a b)
    (hs : b.fsm.state = .writeAddr) (hok : EdgeOk b x) : Edge c a b x := by
  obtain ⟨hq, hstall⟩ := hok
  have hf : (b.step x).fsm = b.fsm.sWriteAddr b.dut.cfg := by
    rw [step_fsm, Fsm.step_of_writeAddr hs]
  rw [Rel, hs] at h
  obtain ⟨hp, hsh, hbuf, hcoef, hacc, ht⟩ := h
  -- no stalled write loses its data when `hwdata` is replaced
  have hfree : x.hready = true ∨ b.slave.writePending = false := by
    cases hw : b.slave.writePending
    · exact Or.inr rfl
    · exact Or.inl (hstall hs hw)
  have hmem := effMem_step b x (not_write_of_idle ht) (Or.inr hfree)
  have hpend : (b.step x).slave.writePending = false := by
    cases hr : x.hready with
    | true => simp [step_slave_ready b hr, Slave.writePending, ht, HTRANS_IDLE]
    | false =>
      rw [step_slave_stall b hr]
      simpa [hr] using hfree
  rw [hsh.cfg] at hf
  simp only [Fsm.sWriteAddr, hacc, hcoef.biasVal, hcoef.curShift, hsh.wPos, hsh.cPos] at hf
  refine Or.inr ⟨?_, by simp [rank, hf, hs], by simp [rank, hf, hs]⟩
  rw [Rel, hf]
  refine ⟨hp, hsh.edge hq hf hmem ⟨rfl, rfl, rfl, hsh.cPos.symm, hsh.wPos.symm, rfl, rfl⟩
      ⟨rfl, rfl, rfl, rfl⟩, hbuf.edge hf ⟨rfl, rfl⟩ ⟨rfl, rfl⟩,
    ⟨by rw [hf], by rw [hf]⟩, hpend, rfl⟩

theorem edge_writeData {c : Config} {a : Seq} {b : Bench} {x : BenchIn} (h : Rel c a b)
    (hs : b.fsm.state = .writeData) (hq : x.apb.isWrite = false) : Edge c a b x := by
  have hf : (b.step x).fsm = b.fsm.sWriteData x.hready := by rw [step_fsm, Fsm.step_of_writeData hs]
  cases hr : x.hready with
  | false => exact edge_of_stall h hq hr (by rw [hf, hr]; rfl)
  | true =>
    rw [Rel, hs] at h
    obtain ⟨hp, hsh, hbuf, hcoef, hpend, hout⟩ := h
    simp only [Fsm.masterOut, MasterOut.mk.injEq] at hout
    obtain ⟨ht, hwr, hsz, haddr, hdata⟩ := hout
    have hstep : a.step c = a.write c := Seq.step_of_write hp
    -- the slave commits the byte one cycle later, and `effMem` counts it already
    have hmem : (b.step x).effMem = (a.write c).mem := by
      have hw : (b.step x).fsm.hwdata = b.fsm.hwdata :=
        (Fsm.step_keeps _ _ _ _ b.fsm).hwdata (by rw [hs]; decide)
      rw [effMem, hw, step_slave_ready b hr, hdata, haddr, hsz, hwr, ht]
      simp [Slave.settled, Slave.writePending, Slave.commit, HTRANS_NONSEQ, HSIZE_BYTE, hsh.mem,
        Seq.write]
    rw [hr, Fsm.sWriteData, if_pos rfl] at hf
    left
    rw [Rel, hf, hstep]
    exact ⟨rfl, ⟨(step_cfg b hq).trans hsh.cfg, by rw [hf]; exact hsh.patchBytes,
        by rw [hf]; exact hsh.patchWords, by rw [hf]; exact hsh.wOutCnt, by rw [hf]; exact hsh.cPos,
        by rw [hf]; exact hsh.wPos, by rw [hf]; exact hsh.bufSel, by rw [hf]; exact hsh.rDone,
        hmem⟩,
      hbuf.edge hf ⟨rfl, rfl⟩ ⟨rfl, rfl⟩,
      hcoef.edge hf ⟨rfl, rfl⟩ ⟨rfl, rfl⟩, rfl⟩

/-! ## Moving on -/

theorem sAdvance_ovlp (c : Config) (r : Fsm) (h1 : r.wPos < r.wOutCnt - 1#16)
    (h2 : r.wPos + 1#16 < r.wOutCnt - 1#16) :
    r.sAdvance c =
      { r with
        wPos := r.wPos + 1#16, acc := 0, bufSel := !r.bufSel, macIdx := 0
        haddr := c.rSrcAddr
          + (r.wPos.setWidth 32 + 2#32) * c.rStride.setWidth 32 * c.rCIn.setWidth 32
        htrans := HTRANS_NONSEQ, hburst := HBURST_INCR, hsize := HSIZE_WORD, hwrite := false
        bufIdx := 0, rWait := true, macDone := false, loadDone := false, state := .macOvlp } := by
  rw [Fsm.sAdvance, if_pos h1, if_pos h2]

theorem sAdvance_mac (c : Config) (r : Fsm) (h1 : r.wPos < r.wOutCnt - 1#16)
    (h2 : ¬ r.wPos + 1#16 < r.wOutCnt - 1#16) :
    r.sAdvance c =
      { r with
        wPos := r.wPos + 1#16, acc := 0, bufSel := !r.bufSel, macIdx := 0, state := .mac } := by
  rw [Fsm.sAdvance, if_pos h1, if_neg h2]

theorem sAdvance_channel (c : Config) (r : Fsm) (h1 : ¬ r.wPos < r.wOutCnt - 1#16)
    (h2 : r.cPos < c.rCOut - 1#8) :
    r.sAdvance c =
      { r with wPos := 0, cPos := r.cPos + 1#8, acc := 0, bufSel := false, state := .wtAddr } := by
  rw [Fsm.sAdvance, if_neg h1, if_pos h2]

theorem sAdvance_done (c : Config) (r : Fsm) (h1 : ¬ r.wPos < r.wOutCnt - 1#16)
    (h2 : ¬ r.cPos < c.rCOut - 1#8) : r.sAdvance c = { r with wPos := 0, state := .done } := by
  rw [Fsm.sAdvance, if_neg h1, if_neg h2]

theorem edge_advance {c : Config} {a : Seq} {b : Bench} {x : BenchIn} (h : Rel c a b)
    (hs : b.fsm.state = .advance) (hq : x.apb.isWrite = false) : Edge c a b x := by
  have hf : (b.step x).fsm = b.fsm.sAdvance b.dut.cfg := by rw [step_fsm, Fsm.step_of_advance hs]
  rw [Rel, hs] at h
  obtain ⟨hp, hsh, hbuf, hcoef, ht⟩ := h
  have hmem := effMem_step_of_state b x (by rw [hs]; decide) (not_write_of_idle ht)
  have hstep : a.step c = a.advance c := Seq.step_of_advance hp
  rw [hsh.cfg] at hf
  left
  rw [hstep]
  -- another output, another channel, or the end
  by_cases h1 : a.wPos < c.wOutCnt - 1#16
  · have h1' : b.fsm.wPos < b.fsm.wOutCnt - 1#16 := by rw [hsh.wPos, hsh.wOutCnt]; exact h1
    by_cases h2 : a.wPos + 1#16 < c.wOutCnt - 1#16
    · have h2' : b.fsm.wPos + 1#16 < b.fsm.wOutCnt - 1#16 := by
        rw [hsh.wPos, hsh.wOutCnt]; exact h2
      rw [sAdvance_ovlp _ _ h1' h2', hsh.wPos, hsh.bufSel] at hf
      rw [Seq.advance, if_pos h1, if_pos h2, Rel, hf]
      refine ⟨rfl, hsh.move hq hf hmem ⟨rfl, rfl, rfl, rfl⟩ ⟨hsh.cPos, rfl, rfl⟩ rfl, hbuf.wtBuf,
        hcoef.edge hf ⟨rfl, rfl⟩ ⟨rfl, rfl⟩,
        Or.inl ⟨rfl, 0, Nat.succ_pos _, rfl, by simp [macSum]⟩,
        Or.inl ⟨by rw [hf], 0, Nat.succ_pos _, by rw [hf]; rfl, ?_,
          Burst.first hf rfl rfl rfl rfl rfl⟩⟩
      rw [hf, loadWords, Function.update_eq_self]
      exact hbuf.inBuf
    · have h2' : ¬ b.fsm.wPos + 1#16 < b.fsm.wOutCnt - 1#16 := by
        rw [hsh.wPos, hsh.wOutCnt]; exact h2
      rw [sAdvance_mac _ _ h1' h2', hsh.wPos, hsh.bufSel] at hf
      rw [Seq.advance, if_pos h1, if_neg h2, Rel, hf]
      exact ⟨rfl, hsh.move hq hf hmem ⟨rfl, rfl, rfl, rfl⟩ ⟨hsh.cPos, rfl, rfl⟩ rfl,
        hbuf.edge hf ⟨rfl, rfl⟩ ⟨rfl, rfl⟩,
        hcoef.edge hf ⟨rfl, rfl⟩ ⟨rfl, rfl⟩,
        ⟨0, Nat.succ_pos _, rfl, by simp [macSum]⟩, ht⟩
  · have h1' : ¬ b.fsm.wPos < b.fsm.wOutCnt - 1#16 := by rw [hsh.wPos, hsh.wOutCnt]; exact h1
    by_cases h2 : a.cPos < c.rCOut - 1#8
    · rw [sAdvance_channel _ _ h1' (by rw [hsh.cPos]; exact h2), hsh.cPos] at hf
      rw [Seq.advance, if_neg h1, if_pos h2, Rel, hf]
      exact ⟨rfl, hsh.move hq hf hmem ⟨rfl, rfl, rfl, rfl⟩ ⟨rfl, rfl, rfl⟩ rfl,
        hbuf.edge hf ⟨rfl, rfl⟩ ⟨rfl, rfl⟩, ht⟩
    · rw [sAdvance_done _ _ h1' (by rw [hsh.cPos]; exact h2)] at hf
      rw [Seq.advance, if_neg h1, if_neg h2, Rel, hf]
      exact ⟨rfl, (step_cfg b hq).trans hsh.cfg, hsh.rDone, ht, hmem.trans hsh.mem⟩

/-! ## Beginning and end -/

theorem edge_init {c : Config} {a : Seq} {b : Bench} {x : BenchIn} (h : Rel c a b)
    (hs : b.fsm.state = .init) (hq : x.apb.isWrite = false) : Edge c a b x := by
  have hf : (b.step x).fsm = b.fsm.sInit b.dut.cfg := by rw [step_fsm, Fsm.step_of_init hs]
  rw [Rel, hs] at h
  obtain ⟨hp, hcfg, hrd, ht, hm, hbuf, hc0, hw0, hb0⟩ := h
  have hmem := effMem_step_of_state b x (by rw [hs]; decide) (not_write_of_idle ht)
  rw [hcfg, Fsm.sInit] at hf
  refine Or.inr ⟨?_, by simp [rank, hf, hs], by simp [rank, hf, hs]⟩
  rw [Rel, hf]
  exact ⟨hp, ⟨(step_cfg b hq).trans hcfg, by rw [hf], by rw [hf], by rw [hf], by rw [hf, hc0],
      by rw [hf, hw0], by rw [hf, hb0], by rw [hf]; exact hrd, hmem.trans hm⟩,
    hbuf.edge hf ⟨rfl, rfl⟩ ⟨rfl, rfl⟩, ht⟩

theorem edge_done {c : Config} {a : Seq} {b : Bench} {x : BenchIn} (h : Rel c a b)
    (hs : b.fsm.state = .done) (hq : x.apb.isWrite = false) : Edge c a b x := by
  have hf : (b.step x).fsm = b.fsm.sDone := by rw [step_fsm, Fsm.step_of_done hs]
  rw [Rel, hs] at h
  obtain ⟨hp, hcfg, hrd, ht, hm⟩ := h
  have hmem := effMem_step_of_state b x (by rw [hs]; decide) (not_write_of_idle ht)
  rw [Fsm.sDone] at hf
  refine Or.inr ⟨?_, by simp [rank, hf, hs], by simp [rank, hf, hs]⟩
  rw [Rel, hf]
  exact ⟨hp, (step_cfg b hq).trans hcfg, rfl, rfl, hmem.trans hm⟩

/-- Back in `S_IDLE` the program has finished and nothing happens any more. -/
theorem edge_idle {c : Config} {a : Seq} {b : Bench} {x : BenchIn} (h : Rel c a b)
    (hs : b.fsm.state = .idle) (hq : x.apb.isWrite = false) : Edge c a b x := by
  have hf : (b.step x).fsm = b.fsm.sIdle x.apb.startPulse := by rw [step_fsm, Fsm.step_of_idle hs]
  rw [Rel, hs] at h
  obtain ⟨hp, hcfg, hrd, ht, hm⟩ := h
  have hmem := effMem_step_of_state b x (by rw [hs]; decide) (not_write_of_idle ht)
  rw [startPulse_eq_false hq, Fsm.sIdle, if_neg Bool.false_ne_true] at hf
  have hstep : a.step c = a := Seq.step_of_finished hp
  left
  rw [Rel, hf, hs, hstep]
  exact ⟨hp, (step_cfg b hq).trans hcfg, hrd, rfl, hmem.trans hm⟩

/-! ## The simulation -/

/-- **The clocked accelerator simulates its program**: every edge that meets `EdgeOk` matches a
program step or counts the rank down, strictly when the slave is ready. -/
theorem stutterSim (c : Config) :
    SyncMachine.StutterSim Bench.step (Seq.step c) (Rel c) EdgeOk (·.hready = true) rank where
  edge a b x h hok := by
    change Edge c a b x
    -- one lemma for each state of the FSM
    cases hs : b.fsm.state with
    | idle => exact edge_idle h hs hok.1
    | init => exact edge_init h hs hok.1
    | inAddr => exact edge_inAddr h hs hok.1
    | inData => exact edge_inData h hs hok.1
    | wtAddr => exact edge_wtAddr h hs hok.1
    | wtData => exact edge_wtData h hs hok.1
    | mac => exact edge_mac h hs hok.1
    | biasAddr => exact edge_biasAddr h hs hok.1
    | biasData => exact edge_biasData h hs hok.1
    | wtDataW => exact edge_wtDataW h hs hok.1
    | shiftData => exact edge_shiftData h hs hok.1
    | writeAddr => exact edge_writeAddr h hs hok
    | writeData => exact edge_writeData h hs hok.1
    | advance => exact edge_advance h hs hok.1
    | done => exact edge_done h hs hok.1
    | macOvlp => exact edge_macOvlp h hs hok.1

/-- A write to CTRL leaves the configuration registers alone. -/
theorem cfg_step_start (c : Config) {q : ApbReq} (hq : q.startPulse = true) : c.step q = c := by
  simp only [ApbReq.startPulse, Bool.and_eq_true, beq_iff_eq] at hq
  simp [Config.step, hq.1.1, hq.1.2]

/-- A START write in `S_IDLE` begins the program, on the memory as the edge leaves it. -/
theorem rel_start_of_idle {b : Bench} {x : BenchIn} (hs : b.fsm.state = .idle)
    (hx : x.apb.startPulse = true) :
    Rel b.dut.cfg { Seq.start b with mem := (b.step x).effMem } (b.step x) := by
  have hf : (b.step x).fsm = b.fsm.sIdle x.apb.startPulse := by rw [step_fsm, Fsm.step_of_idle hs]
  rw [Fsm.sIdle, if_pos hx] at hf
  rw [Rel, hf]
  exact ⟨rfl, cfg_step_start _ hx, rfl, rfl, rfl, ⟨by rw [hf]; rfl, by rw [hf]; rfl⟩, rfl, rfl, rfl⟩

/-- A START write in a quiescent system begins the program. -/
theorem rel_start {b : Bench} {x : BenchIn} (hq : b.Quiescent) (hx : x.apb.startPulse = true) :
    Rel b.dut.cfg (Seq.start b) (b.step x) := by
  have hpend : b.slave.writePending = false := by simp [Slave.writePending, hq.apValid]
  have hmem := effMem_step b x (not_write_of_idle hq.htrans) (Or.inr (Or.inr hpend))
  have hm : (b.step x).effMem = b.slave.mem := hmem.trans (by simp [effMem, Slave.settled, hpend])
  have h := rel_start_of_idle hq.state hx
  rwa [hm] at h

end KwsSoc.Conv1dAccel.Bench
