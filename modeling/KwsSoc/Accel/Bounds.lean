import KwsSoc.Accel.Termination

/-! # Which buffer words and which patch words a run touches

`Fsm.bufWrite` is the index of the buffer word an edge stores into (`step_buf_frame`: no other word
changes), and `Fsm.patchRead` the position whose patch is read when an address phase is accepted.
`InBounds` compares both, and `mac_idx`, with the words of a patch. The limits of the loops come
from `patch_words`, which has 6 bits: `patchReads_inBounds_iff` shows that every run stays in
bounds up to 252 bytes a patch, and that 253 to 256 bytes, for which `patch_words` is 0, break them.

The invariant (`BoundsInv`) is about the FSM alone: it holds for every `hready` and every
`hrdata`. -/

namespace KwsSoc.Conv1dAccel

open SyncMachine

namespace Config

/-- `ceil(K_w * C_in / 4)`: the words of a patch. -/
def words (c : Config) : ℕ := (c.taps + 3) / 4

/-- First byte of the patch of position `w`. -/
def patchStart (c : Config) (w : ℕ) : BitVec 32 := c.rSrcAddr + BitVec.ofNat 32 (c.patchOff w)

end Config

namespace Fsm

/-- The index an edge stores a buffer word at: the zeroed last weight word, a weight word, the word
of a weight byte, or an input word. -/
def bufWrite (c : Config) (r : Fsm) (hready : Bool) : Option ℕ :=
  match r.state with
  | .wtAddr =>
    if (wWtAddr c r).extractLsb' 0 2 = 0#2 ∧ r.patchBytes.extractLsb' 0 2 = 0#2 then none
    else some (r.patchWords.setWidth 32 - 1#32).toNat
  | .wtDataW => if hready && !r.rWait then some r.wtWordIdx.toNat else none
  | .wtData => if hready && !r.rWait then some (r.bufIdx.extractLsb' 2 5).toNat else none
  | .inData => if hready && !r.rWait then some r.bufIdx.toNat else none
  | .macOvlp => if !r.loadDone && hready && !r.rWait then some r.bufIdx.toNat else none
  | _ => none

/-- The position whose patch is read when a read address phase is accepted. -/
def patchRead (r : Fsm) (hready : Bool) : Option ℕ :=
  match r.state with
  | .inData => if hready && r.htrans.getLsbD 1 then some r.wPos.toNat else none
  | .macOvlp => if hready && r.htrans.getLsbD 1 then some (r.wPos.toNat + 1) else none
  | _ => none

/-- The MAC reads the buffers at `mac_idx`. -/
def MacState (r : Fsm) : Prop := r.state = .mac ∨ r.state = .macOvlp

/-- Storing at another index leaves a word alone. -/
theorem write_of_ne (b : WordBuf) {k : ℕ} (v : BitVec 32) {j : BitVec 6} (h : j.toNat ≠ k) :
    b.write k v j = b j := if_neg h

theorem writeLane_of_ne (b : WordBuf) {k : ℕ} (l : BitVec 2) (v : BitVec 8) {j : BitVec 6}
    (h : j.toNat ≠ k) : b.writeLane k l v j = b j := if_neg h

/-- **Frame lemma for the buffers**: an edge changes the words at `bufWrite` only. -/
theorem step_buf_frame (c : Config) (st hr : Bool) (d : BitVec 32) (r : Fsm) {j : BitVec 6}
    (h : ∀ k ∈ r.bufWrite c hr, j.toNat ≠ k) :
    (r.step c st hr d).inBuf0 j = r.inBuf0 j ∧ (r.step c st hr d).inBuf1 j = r.inBuf1 j ∧
      (r.step c st hr d).wtBuf j = r.wtBuf j := by
  cases hs : r.state
  case wtAddr =>
    simp only [bufWrite, hs] at h
    rw [step, hs]
    change (r.sWtAddr c).inBuf0 j = _ ∧ (r.sWtAddr c).inBuf1 j = _ ∧ (r.sWtAddr c).wtBuf j = _
    rw [sWtAddr]
    split_ifs at h ⊢ with hw
    · exact ⟨rfl, rfl, rfl⟩
    · exact ⟨rfl, rfl, write_of_ne _ _ (h _ rfl)⟩
  case wtDataW =>
    simp only [bufWrite, hs] at h
    simp only [step, hs, sWtDataW]
    split_ifs with h1 h2 h3
    all_goals first
      | exact ⟨rfl, rfl, rfl⟩
      | exact ⟨rfl, rfl, write_of_ne _ _ (h _ (by simp [h1, h2]))⟩
  case wtData =>
    simp only [bufWrite, hs] at h
    simp only [step, hs, sWtData]
    split_ifs with h1 h2 h3
    all_goals first
      | exact ⟨rfl, rfl, rfl⟩
      | exact ⟨rfl, rfl, writeLane_of_ne _ _ _ (h _ (by simp [h1, h2]))⟩
  case inData =>
    simp only [bufWrite, hs] at h
    simp only [step, hs, sInData]
    split_ifs with h1 h2 h3
    all_goals first
      | exact ⟨rfl, rfl, rfl⟩
      | exact ⟨write_of_ne _ _ (h _ (by simp [h1, h2])), rfl, rfl⟩
      | exact ⟨rfl, write_of_ne _ _ (h _ (by simp [h1, h2])), rfl⟩
  case macOvlp =>
    simp only [bufWrite, hs] at h
    rw [step, hs]
    change (r.sMacOvlp hr d).inBuf0 j = _ ∧ (r.sMacOvlp hr d).inBuf1 j = _ ∧
      (r.sMacOvlp hr d).wtBuf j = _
    rw [Bench.sMacOvlp_eq]
    -- only the load half stores
    change (r.sMacOvlpLoad hr d).inBuf0 j = _ ∧ (r.sMacOvlpLoad hr d).inBuf1 j = _ ∧
      r.wtBuf j = r.wtBuf j
    rw [sMacOvlpLoad]
    split_ifs with h1 h2 h3
    all_goals first
      | exact ⟨rfl, rfl, rfl⟩
      | exact ⟨write_of_ne _ _ (h _ (by simp [h1, h2])), rfl, rfl⟩
      | exact ⟨rfl, write_of_ne _ _ (h _ (by simp [h1, h2])), rfl⟩
  all_goals
    simp only [step, hs, sIdle, sInit, sInAddr, sMac, sBiasAddr, sBiasData, sShiftData, sWriteAddr,
      sWriteData, sAdvance, sDone]
    repeat' split
    all_goals trivial

end Fsm

/-! ## The bounds -/

/-- `mac_idx` is within a patch; as long as no MAC has set it, it is what the run began with. -/
def MacOk (c : Config) (m₀ : BitVec 6) (r : Fsm) : Prop :=
  r.macIdx.toNat < c.words ∨ (r.macIdx = m₀ ∧ ¬ r.MacState)

/-- **A cycle in bounds**: what it stores is within the words of a patch, so is `mac_idx`, and what
it reads of an input patch goes at most one word beyond. -/
structure InBounds (c : Config) (m₀ : BitVec 6) (r : Fsm) (hready : Bool) : Prop where
  write : ∀ k ∈ r.bufWrite c hready, k < c.words
  mac : MacOk c m₀ r
  read : ∀ w ∈ r.patchRead hready, (r.haddr - c.patchStart w).toNat < 4 * c.words + 4

/-- The registers `S_INIT` derives from the configuration. -/
structure Derived (c : Config) (r : Fsm) : Prop where
  patchBytes : r.patchBytes = c.patchBytes
  patchWords : r.patchWords = c.patchWords
  wOutCnt : r.wOutCnt = c.wOutCnt

/-- An input load of position `w` under way: `buf_idx` words are stored, and the address runs one
word ahead of them once the first one has been accepted. -/
structure Loading (c : Config) (r : Fsm) (w : ℕ) : Prop where
  idx : r.bufIdx.toNat < c.words
  wait : r.rWait = true → r.bufIdx.toNat = 0
  haddr : r.haddr =
    c.patchStart w + BitVec.ofNat 32 (4 * (r.bufIdx.toNat + if r.rWait then 0 else 1))

/-- **The invariant**, state by state. -/
def BoundsInv (c : Config) (r : Fsm) : Prop :=
  match r.state with
  | .idle | .init | .done => True
  | .wtAddr | .biasAddr | .biasData | .shiftData | .inAddr => Derived c r ∧ r.wPos = 0
  | .wtDataW => Derived c r ∧ r.wPos = 0 ∧ r.wtWordIdx.toNat < c.words
  | .wtData => Derived c r ∧ r.wPos = 0 ∧ r.bufIdx.toNat < c.taps
  | .inData => Derived c r ∧ r.wPos = 0 ∧ Loading c r 0
  | .macOvlp => Derived c r ∧ ((r.loadDone = true ∧ r.htrans = HTRANS_IDLE) ∨
      (r.loadDone = false ∧ Loading c r (r.wPos.toNat + 1)))
  | .mac | .writeAddr | .writeData | .advance => Derived c r

/-! ## Counters against their limits -/

namespace Config

variable {c : Config}

/-- `patch_words` is exact up to 252 bytes, and so is the limit of the input loads. -/
theorem loadRounds_eq (hc : c.Shape) (h : c.taps ≤ 252) : c.loadRounds = c.words := by
  have h0 := taps_pos hc
  rw [loadRounds, BitVec.toNat_sub, BitVec.toNat_setWidth, toNat_patchWords hc, words]
  simp only [BitVec.toNat_ofNat]
  omega

/-- The address of the second patch, as `S_IN_DATA` computes it. -/
theorem patchStart_one (c : Config) : c.rSrcAddr + c.patchStep = c.patchStart 1 := by
  rw [patchStart, patchOff, patchStep, Nat.one_mul, BitVec.ofNat_mul, BitVec.ofNat_toNat,
    BitVec.ofNat_toNat]

/-- The address of the patch after the next, as `S_ADVANCE` computes it. -/
theorem patchStart_add_two (c : Config) (w : BitVec 16) :
    c.rSrcAddr + (w.setWidth 32 + 2#32) * c.rStride.setWidth 32 * c.rCIn.setWidth 32 =
      c.patchStart (w.toNat + 2) := by
  rw [patchStart, patchOff, BitVec.ofNat_mul, BitVec.ofNat_mul, BitVec.ofNat_add,
    BitVec.ofNat_toNat, BitVec.ofNat_toNat, BitVec.ofNat_toNat]

theorem words_pos (hc : c.Shape) : 0 < c.words := by
  have h0 := taps_pos hc
  rw [words]
  omega

theorem words_le (hc : c.Shape) : c.words ≤ 64 := by
  have h := hc.taps_le
  rw [words]
  omega

end Config

/-- A counter that has not got to its last value moves on without wrapping. -/
theorem toNat_add_one {w n : ℕ} {i last : BitVec w} (hl : last.toNat + 1 = n) (hi : i.toNat < n)
    (hne : i ≠ last) : (i + 1#w).toNat = i.toNat + 1 ∧ i.toNat + 1 < n := by
  have hne' : i.toNat ≠ last.toNat := fun h => hne (BitVec.eq_of_toNat_eq h)
  have hlt : i < last := by
    change i.toNat < last.toNat
    omega
  rw [toNat_add_one_of_lt hlt]
  omega

namespace Loading

variable {c : Config} {r r' : Fsm} {w : ℕ}

/-- A load begins at the first word of the patch. -/
theorem start (hc : c.Shape) (hi : r.bufIdx = 0) (hw : r.rWait = true)
    (ha : r.haddr = c.patchStart w) : Loading c r w := by
  refine ⟨?_, fun _ => by rw [hi]; rfl, ?_⟩
  · rw [hi]
    exact Config.words_pos hc
  · simp [ha, hw, hi]

/-- The first address phase is accepted. -/
theorem accept (h : Loading c r w) (hw : r.rWait = true) (hi : r'.bufIdx = r.bufIdx)
    (hw' : r'.rWait = false) (ha : r'.haddr = r.haddr + 4#32) : Loading c r' w := by
  refine ⟨by rw [hi]; exact h.idx, fun hr => absurd hr (by simp [hw']), ?_⟩
  rw [ha, h.haddr, hi, h.wait hw, hw, hw']
  simp

/-- A word is stored, and the next address phase accepted. -/
theorem next (h : Loading c r w) (hw : r.rWait = false)
    (hn : (r.bufIdx + 1#7).toNat = r.bufIdx.toNat + 1 ∧ r.bufIdx.toNat + 1 < c.words)
    (hi : r'.bufIdx = r.bufIdx + 1#7) (hw' : r'.rWait = false)
    (ha : r'.haddr = r.haddr + 4#32) : Loading c r' w := by
  refine ⟨by rw [hi, hn.1]; exact hn.2, fun hr => absurd hr (by simp [hw']), ?_⟩
  rw [ha, h.haddr, hi, hn.1, hw, hw']
  simp only [Bool.false_eq_true, if_false, Nat.mul_add, BitVec.ofNat_add, BitVec.add_assoc]

/-- The address driven lies within the patch or on the word after it. -/
theorem offset_lt (h : Loading c r w) (hc : c.Shape) :
    (r.haddr - c.patchStart w).toNat < 4 * c.words + 4 := by
  have hle := Config.words_le hc
  have hidx := h.idx
  have hsub : r.haddr - c.patchStart w =
      BitVec.ofNat 32 (4 * (r.bufIdx.toNat + if r.rWait then 0 else 1)) := by
    rw [h.haddr, BitVec.add_comm, BitVec.add_sub_cancel]
  rw [hsub, BitVec.toNat_ofNat]
  split <;> omega

end Loading

/-! ## Every edge keeps the bounds -/

section Step

variable {c : Config} {r : Fsm} {m₀ : BitVec 6} {st hr : Bool} {d : BitVec 32}

/-- The MAC half moves `mac_idx` within a patch. -/
theorem macIdx_next_lt (hc : c.Shape) (hd : Derived c r) (hm : r.macIdx.toNat < c.words)
    (hne : ¬ r.macIdx = r.patchWords - 1#6) : (r.macIdx + 1#6).toNat < c.words := by
  rw [hd.patchWords] at hne
  have h := toNat_add_one (Config.wordRounds_eq hc) hm hne
  rw [h.1]
  exact h.2

/-- An edge that leaves `mac_idx` alone outside the MAC states keeps it in bounds. -/
theorem MacOk.frame {r' : Fsm} (h : MacOk c m₀ r) (hm : r'.macIdx = r.macIdx)
    (hst : ¬ r'.MacState) : MacOk c m₀ r' := by
  rcases h with h | ⟨h, -⟩
  · exact Or.inl (by rw [hm]; exact h)
  · exact Or.inr ⟨hm.trans h, hst⟩

/-- **Step lemma for `mac_idx`.** -/
theorem MacOk.step (hc : c.Shape) (h : MacOk c m₀ r) (hi : BoundsInv c r) :
    MacOk c m₀ (r.step c st hr d) := by
  have h0 := Config.words_pos hc
  by_cases hmac : r.state = .mac
  · have hm : r.macIdx.toNat < c.words := h.resolve_right (fun h => h.2 (Or.inl hmac))
    rw [BoundsInv, hmac] at hi
    rw [Fsm.step_of_mac hmac, Fsm.sMac]
    split_ifs with hl
    · exact Or.inl hm
    · exact Or.inl (macIdx_next_lt hc hi hm hl)
  by_cases hovlp : r.state = .macOvlp
  · have hm : r.macIdx.toNat < c.words := h.resolve_right (fun h => h.2 (Or.inr hovlp))
    rw [BoundsInv, hovlp] at hi
    rw [Fsm.step_of_macOvlp hovlp, Bench.sMacOvlp_eq]
    left
    change r.sMacOvlpMac.macIdx.toNat < c.words
    rw [Fsm.sMacOvlpMac]
    split_ifs with hd hl
    · exact hm
    · exact hm
    · exact macIdx_next_lt hc hi.1 hm hl
  have hst : ¬ r.MacState := not_or.mpr ⟨hmac, hovlp⟩
  by_cases hin : r.state = .inData
  · rw [Fsm.step_of_inData hin, Fsm.sInData]
    split_ifs
    all_goals first
      | exact Or.inl h0
      | exact h.frame rfl hst
  by_cases hadv : r.state = .advance
  · rw [Fsm.step_of_advance hadv, Fsm.sAdvance]
    split_ifs
    all_goals first
      | exact Or.inl h0
      | exact h.frame rfl (by simp [Fsm.MacState])
  · -- no other state touches `mac_idx` or leads to a MAC
    obtain ⟨hm, hmac', hovlp'⟩ := (Fsm.step_keeps c st hr d r).macIdx hin hmac hovlp hadv
    exact h.frame hm (not_or.mpr ⟨hmac', hovlp'⟩)

/-- The three derived registers are written by `S_INIT` only. -/
theorem Derived.frame {r' : Fsm} (h : Derived c r) (hb : r'.patchBytes = r.patchBytes)
    (hw : r'.patchWords = r.patchWords) (ho : r'.wOutCnt = r.wOutCnt) : Derived c r' :=
  ⟨hb.trans h.patchBytes, hw.trans h.patchWords, ho.trans h.wOutCnt⟩

/-- The weight word loop. -/
theorem boundsInv_wtDataW (hc : c.Shape) (hs : r.state = .wtDataW) (h : BoundsInv c r) :
    BoundsInv c (r.sWtDataW hr d) := by
  have hkeep := h
  rw [BoundsInv, hs] at h
  obtain ⟨hd, hw, hidx⟩ := h
  rw [Fsm.sWtDataW]
  split_ifs with h1 h2 h3
  · rw [BoundsInv, hs]
    exact ⟨hd.frame rfl rfl rfl, hw, hidx⟩
  · exact ⟨hd.frame rfl rfl rfl, hw⟩
  · rw [hd.patchWords] at h3
    have hn := toNat_add_one (Config.wordRounds_eq hc) hidx h3
    rw [BoundsInv, hs]
    refine ⟨hd.frame rfl rfl rfl, hw, ?_⟩
    change (r.wtWordIdx + 1#6).toNat < c.words
    rw [hn.1]
    exact hn.2
  · exact hkeep

/-- The weight byte loop: `buf_idx` stays below the bytes of a channel, also when it wraps. -/
theorem boundsInv_wtData (hc : c.Shape) (hs : r.state = .wtData) (h : BoundsInv c r) :
    BoundsInv c (r.sWtData hr d) := by
  have hkeep := h
  rw [BoundsInv, hs] at h
  obtain ⟨hd, hw, hidx⟩ := h
  rw [Fsm.sWtData]
  split_ifs with h1 h2 h3
  · rw [BoundsInv, hs]
    exact ⟨hd.frame rfl rfl rfl, hw, hidx⟩
  · exact ⟨hd.frame rfl rfl rfl, hw⟩
  · have hlast : (r.patchBytes - 1#16).toNat + 1 = c.taps := by
      rw [hd.patchBytes]
      exact Config.byteRounds_eq hc
    have hne : r.bufIdx.toNat + 1 ≠ c.taps := by
      intro he
      refine h3 (BitVec.eq_of_toNat_eq ?_)
      have hlt := r.bufIdx.isLt
      rw [BitVec.toNat_setWidth, Nat.mod_eq_of_lt (by omega)]
      omega
    rw [BoundsInv, hs]
    refine ⟨hd.frame rfl rfl rfl, hw, ?_⟩
    change (r.bufIdx + 1#7).toNat < c.taps
    rw [BitVec.toNat_add, BitVec.toNat_ofNat]
    omega
  · exact hkeep

/-- The load of the first patch, which ends in one of the two MAC states. -/
theorem boundsInv_inData (hc : c.Shape) (h252 : c.taps ≤ 252) (hs : r.state = .inData)
    (h : BoundsInv c r) : BoundsInv c (r.sInData c hr d) := by
  cases hr with
  | false => exact h
  | true =>
    rw [BoundsInv, hs] at h
    obtain ⟨hd, hw, hl⟩ := h
    cases hwt : r.rWait with
    | true =>
      rw [Bench.sInData_wait c r d hwt, BoundsInv, hs]
      exact ⟨hd.frame rfl rfl rfl, hw, hl.accept hwt rfl rfl rfl⟩
    | false =>
      by_cases he : r.bufIdx = r.patchWords.setWidth 7 - 1#7
      · by_cases ho : 1#16 < r.wOutCnt
        · rw [Bench.sInData_ovlp c r d hwt he ho]
          refine ⟨hd.frame rfl rfl rfl, Or.inr ⟨rfl, Loading.start hc rfl rfl ?_⟩⟩
          change c.rSrcAddr + c.patchStep = c.patchStart (r.wPos.toNat + 1)
          rw [hw]
          exact c.patchStart_one
        · rw [Bench.sInData_mac c r d hwt he ho]
          exact hd.frame rfl rfl rfl
      · rw [Bench.sInData_next c r d hwt he, BoundsInv, hs]
        rw [hd.patchWords] at he
        have hn := toNat_add_one (Config.loadRounds_eq hc h252) hl.idx he
        exact ⟨hd.frame rfl rfl rfl, hw, hl.next hwt hn rfl hwt rfl⟩

/-- The load half of the overlapped state stalls, makes its round, or is done and stays done. -/
theorem loading_sMacOvlpLoad (hc : c.Shape) (h252 : c.taps ≤ 252) (hd : Derived c r) {w : ℕ}
    (h : (r.loadDone = true ∧ r.htrans = HTRANS_IDLE) ∨ (r.loadDone = false ∧ Loading c r w)) :
    ((r.sMacOvlpLoad hr d).loadDone = true ∧ (r.sMacOvlpLoad hr d).htrans = HTRANS_IDLE) ∨
      ((r.sMacOvlpLoad hr d).loadDone = false ∧ Loading c (r.sMacOvlpLoad hr d) w) := by
  rcases h with ⟨hld, ht⟩ | ⟨hld, hl⟩
  · rw [Bench.sMacOvlpLoad_idle r hr d (Or.inl hld)]
    exact Or.inl ⟨hld, ht⟩
  · cases hr with
    | false =>
      rw [Bench.sMacOvlpLoad_idle r false d (Or.inr rfl)]
      exact Or.inr ⟨hld, hl⟩
    | true =>
      cases hwt : r.rWait with
      | true =>
        rw [Bench.sMacOvlpLoad_wait r d hld hwt]
        exact Or.inr ⟨hld, hl.accept hwt rfl rfl rfl⟩
      | false =>
        by_cases he : r.bufIdx = r.patchWords.setWidth 7 - 1#7
        · rw [Bench.sMacOvlpLoad_last r d hld hwt he]
          exact Or.inl ⟨rfl, rfl⟩
        · rw [Bench.sMacOvlpLoad_next r d hld hwt he]
          rw [hd.patchWords] at he
          have hn := toNat_add_one (Config.loadRounds_eq hc h252) hl.idx he
          exact Or.inr ⟨hld, hl.next hwt hn rfl hwt rfl⟩

/-- The overlapped load, beside the MAC half. -/
theorem boundsInv_macOvlp (hc : c.Shape) (h252 : c.taps ≤ 252) (hs : r.state = .macOvlp)
    (h : BoundsInv c r) : BoundsInv c (r.sMacOvlp hr d) := by
  rw [BoundsInv, hs] at h
  obtain ⟨hd, hl⟩ := h
  rw [Bench.sMacOvlp_eq]
  by_cases hdone : (r.macDone && r.loadDone) = true
  · rw [BoundsInv, if_pos hdone]
    exact hd.frame rfl rfl rfl
  · rw [BoundsInv, if_neg hdone, hs]
    refine ⟨hd.frame rfl rfl rfl, ?_⟩
    have hload : ((r.sMacOvlpLoad hr d).loadDone = true ∧
          (r.sMacOvlpLoad hr d).htrans = HTRANS_IDLE) ∨
        ((r.sMacOvlpLoad hr d).loadDone = false ∧ Loading c (r.sMacOvlpLoad hr d) _) :=
      loading_sMacOvlpLoad hc h252 hd hl
    rcases hload with h | ⟨hld, hl'⟩
    · exact Or.inl h
    · exact Or.inr ⟨hld, hl'.idx, hl'.wait, hl'.haddr⟩

/-- The next position, the next channel or the end. -/
theorem boundsInv_advance (hc : c.Shape) (hs : r.state = .advance) (h : BoundsInv c r) :
    BoundsInv c (r.sAdvance c) := by
  rw [BoundsInv, hs] at h
  by_cases h1 : r.wPos < r.wOutCnt - 1#16
  · by_cases h2 : r.wPos + 1#16 < r.wOutCnt - 1#16
    · rw [Bench.sAdvance_ovlp c r h1 h2]
      refine ⟨h.frame rfl rfl rfl, Or.inr ⟨rfl, Loading.start hc rfl rfl ?_⟩⟩
      change _ = c.patchStart ((r.wPos + 1#16).toNat + 1)
      rw [toNat_add_one_of_lt h1]
      exact c.patchStart_add_two r.wPos
    · rw [Bench.sAdvance_mac c r h1 h2]
      exact h.frame rfl rfl rfl
  · by_cases h2 : r.cPos < c.rCOut - 1#8
    · rw [Bench.sAdvance_channel c r h1 h2]
      exact ⟨h.frame rfl rfl rfl, rfl⟩
    · rw [Bench.sAdvance_done c r h1 h2]
      trivial

/-- **Step lemma**: every edge keeps the bounds, whatever `hready` and `hrdata` are. -/
theorem BoundsInv.step (hc : c.Shape) (h252 : c.taps ≤ 252) (h : BoundsInv c r) :
    BoundsInv c (r.step c st hr d) := by
  have hi := h
  cases hs : r.state with
  | idle =>
    rw [Fsm.step_of_idle hs, Fsm.sIdle]
    split_ifs
    · trivial
    · rwa [BoundsInv, hs] at h ⊢
  | init =>
    rw [Fsm.step_of_init hs]
    exact ⟨⟨rfl, rfl, rfl⟩, rfl⟩
  | wtAddr =>
    rw [Fsm.step_of_wtAddr hs, Fsm.sWtAddr]
    rw [BoundsInv, hs] at h
    split_ifs
    · exact ⟨h.1.frame rfl rfl rfl, h.2, Config.words_pos hc⟩
    · exact ⟨h.1.frame rfl rfl rfl, h.2, Config.taps_pos hc⟩
  | wtDataW =>
    rw [Fsm.step_of_wtDataW hs]
    exact boundsInv_wtDataW hc hs hi
  | wtData =>
    rw [Fsm.step_of_wtData hs]
    exact boundsInv_wtData hc hs hi
  | biasAddr =>
    rw [Fsm.step_of_biasAddr hs]
    rw [BoundsInv, hs] at h
    exact ⟨h.1.frame rfl rfl rfl, h.2⟩
  | biasData =>
    rw [Fsm.step_of_biasData hs, Fsm.sBiasData]
    rw [BoundsInv, hs] at h
    split_ifs
    · rw [BoundsInv, hs]
      exact ⟨h.1.frame rfl rfl rfl, h.2⟩
    · exact ⟨h.1.frame rfl rfl rfl, h.2⟩
    · exact hi
  | shiftData =>
    rw [Fsm.step_of_shiftData hs, Fsm.sShiftData]
    rw [BoundsInv, hs] at h
    split_ifs
    · rw [BoundsInv, hs]
      exact ⟨h.1.frame rfl rfl rfl, h.2⟩
    · exact ⟨h.1.frame rfl rfl rfl, h.2⟩
    · exact hi
  | inAddr =>
    rw [Fsm.step_of_inAddr hs]
    rw [BoundsInv, hs] at h
    refine ⟨h.1.frame rfl rfl rfl, h.2, Loading.start hc rfl rfl ?_⟩
    change c.patchAddr r.wPos = c.patchStart 0
    rw [h.2]
    exact c.patchAddr_eq 0
  | inData =>
    rw [Fsm.step_of_inData hs]
    exact boundsInv_inData hc h252 hs hi
  | macOvlp =>
    rw [Fsm.step_of_macOvlp hs]
    exact boundsInv_macOvlp hc h252 hs hi
  | mac =>
    rw [Fsm.step_of_mac hs, Fsm.sMac]
    rw [BoundsInv, hs] at h
    split_ifs
    · exact h.frame rfl rfl rfl
    · rw [BoundsInv, hs]
      exact h.frame rfl rfl rfl
  | writeAddr =>
    rw [Fsm.step_of_writeAddr hs]
    rw [BoundsInv, hs] at h
    exact h.frame rfl rfl rfl
  | writeData =>
    rw [Fsm.step_of_writeData hs, Fsm.sWriteData]
    rw [BoundsInv, hs] at h
    split_ifs
    · exact h.frame rfl rfl rfl
    · exact hi
  | advance =>
    rw [Fsm.step_of_advance hs]
    exact boundsInv_advance hc hs hi
  | done =>
    rw [Fsm.step_of_done hs]
    trivial

/-- The word zeroed before the byte loop is the last one of a patch. -/
theorem zeroed_lt (hc : c.Shape) (h252 : c.taps ≤ 252) (hd : Derived c r) :
    (r.patchWords.setWidth 32 - 1#32).toNat < c.words := by
  have h0 := Config.words_pos hc
  rw [hd.patchWords, BitVec.toNat_sub, BitVec.toNat_setWidth, Config.toNat_patchWords hc]
  rw [Config.words] at h0 ⊢
  simp only [BitVec.toNat_ofNat]
  omega

/-- The index of a store, in every state of the invariant. -/
theorem BoundsInv.bufWrite_lt (hc : c.Shape) (h252 : c.taps ≤ 252) (h : BoundsInv c r) :
    ∀ k ∈ r.bufWrite c hr, k < c.words := by
  intro k hk
  cases hs : r.state
  case wtAddr =>
    simp only [Fsm.bufWrite, hs] at hk
    rw [BoundsInv, hs] at h
    split_ifs at hk
    · cases hk
    · cases hk
      exact zeroed_lt hc h252 h.1
  case wtDataW =>
    simp only [Fsm.bufWrite, hs] at hk
    rw [BoundsInv, hs] at h
    split_ifs at hk
    · cases hk
      exact h.2.2
    · cases hk
  case wtData =>
    simp only [Fsm.bufWrite, hs] at hk
    rw [BoundsInv, hs] at h
    split_ifs at hk
    · cases hk
      have hidx := h.2.2
      have hlt := r.bufIdx.isLt
      rw [BitVec.extractLsb'_toNat, Nat.shiftRight_eq_div_pow, Config.words]
      omega
    · cases hk
  case inData =>
    simp only [Fsm.bufWrite, hs] at hk
    rw [BoundsInv, hs] at h
    split_ifs at hk
    · cases hk
      exact h.2.2.idx
    · cases hk
  case macOvlp =>
    simp only [Fsm.bufWrite, hs] at hk
    rw [BoundsInv, hs] at h
    split_ifs at hk with hcond
    · cases hk
      rcases h.2 with ⟨hld, -⟩ | ⟨-, hl⟩
      · simp [hld] at hcond
      · exact hl.idx
    · cases hk
  all_goals
    simp only [Fsm.bufWrite, hs] at hk
    cases hk

/-- The address of an accepted patch read, in every state of the invariant. -/
theorem BoundsInv.patchRead_lt (hc : c.Shape) (h : BoundsInv c r) :
    ∀ w ∈ r.patchRead hr, (r.haddr - c.patchStart w).toNat < 4 * c.words + 4 := by
  intro w hw
  cases hs : r.state
  case inData =>
    simp only [Fsm.patchRead, hs] at hw
    rw [BoundsInv, hs] at h
    split_ifs at hw
    · cases hw
      rw [h.2.1]
      exact h.2.2.offset_lt hc
    · cases hw
  case macOvlp =>
    simp only [Fsm.patchRead, hs] at hw
    rw [BoundsInv, hs] at h
    split_ifs at hw with hcond
    · cases hw
      rcases h.2 with ⟨-, ht⟩ | ⟨-, hl⟩
      · simp [ht, HTRANS_IDLE] at hcond
      · exact hl.offset_lt hc
    · cases hw
  all_goals
    simp only [Fsm.patchRead, hs] at hw
    cases hw

end Step

/-! ## Runs -/

namespace Bench

variable {b : Bench} {i : ℕ → BenchIn}

/-- A run from a START keeps the configuration it was started with. -/
theorem cfg_trace (hi : StartRun i) (n : ℕ) : (trace step b i n).dut.cfg = b.dut.cfg := by
  induction n with
  | zero => rfl
  | succ n ih =>
    rw [trace_succ]
    cases n with
    | zero => exact cfg_step_start _ hi.start
    | succ n => exact (step_cfg _ (hi.quiet n)).trans ih

/-- **Run lemma**: up to 252 bytes a patch every cycle of every run is in bounds. -/
theorem inBounds_trace (hs : b.fsm.state = .idle) (hi : StartRun i) (hc : b.dut.cfg.Shape)
    (h252 : b.dut.cfg.taps ≤ 252) (n : ℕ) :
    InBounds b.dut.cfg b.fsm.macIdx (trace step b i n).fsm (i n).hready := by
  have hinv : BoundsInv b.dut.cfg (trace step b i n).fsm ∧
      MacOk b.dut.cfg b.fsm.macIdx (trace step b i n).fsm := by
    induction n with
    | zero =>
      refine ⟨?_, Or.inr ⟨rfl, by simp [Fsm.MacState, hs]⟩⟩
      rw [trace_zero, BoundsInv, hs]
      trivial
    | succ n ih =>
      rw [trace_succ, step_fsm, cfg_trace hi]
      exact ⟨ih.1.step hc h252, ih.2.step hc ih.1⟩
  exact ⟨hinv.1.bufWrite_lt hc h252, hinv.2, hinv.1.patchRead_lt hc⟩

/-- From 253 bytes on, `patch_words` has wrapped to 0. -/
theorem patchWords_eq_zero {c : Config} (hc : c.Shape) (h : 252 < c.taps) :
    c.patchWords = 0 ∧ c.words = 64 := by
  have hle := hc.taps_le
  refine ⟨BitVec.eq_of_toNat_eq ?_, by rw [Config.words]; omega⟩
  rw [Config.toNat_patchWords hc]
  change _ = 0
  omega

/-- The byte path of an oversized patch zeroes a word far outside the buffer. -/
theorem not_inBounds_wtAddr (hs : b.fsm.state = .idle) (hi : StartRun i) (hc : b.dut.cfg.Shape)
    (h : 252 < b.dut.cfg.taps) (hw : ¬ b.dut.cfg.WordPath 0) :
    ¬ InBounds b.dut.cfg b.fsm.macIdx (trace step b i 2).fsm (i 2).hready := by
  have hf : (trace step b i 2).fsm = Fsm.sInit b.dut.cfg (b.fsm.sIdle true) := by
    rw [trace_succ, step_fsm, cfg_trace hi, trace_succ, trace_zero, step_fsm, hi.start, Fsm.step,
      Fsm.step, hs]
    rfl
  obtain ⟨hpw, hwords⟩ := patchWords_eq_zero hc h
  intro hb
  have hlt := hb.write (b.dut.cfg.patchWords.setWidth 32 - 1#32).toNat (by
    rw [hf]
    exact if_neg hw)
  rw [hpw, hwords] at hlt
  exact absurd hlt (by decide)

/-- The input load with `patch_words = 0`. -/
structure EndlessLoad (r : Fsm) : Prop where
  state : r.state = .inAddr ∨ r.state = .inData
  patchWords : r.patchWords = 0

/-- With `patch_words = 0` the load ends at `buf_idx = 127`, so in bounds it does not end. -/
theorem EndlessLoad.step {c : Config} {m₀ : BitVec 6} {r : Fsm} {st : Bool} {d : BitVec 32}
    (h : EndlessLoad r) (hwords : c.words = 64) (hb : InBounds c m₀ r true) :
    EndlessLoad (r.step c st true d) := by
  obtain ⟨hs | hs, hpw⟩ := h
  · rw [Fsm.step_of_inAddr hs]
    exact ⟨Or.inr rfl, hpw⟩
  · rw [Fsm.step_of_inData hs]
    cases hw : r.rWait with
    | true =>
      rw [sInData_wait c r d hw]
      exact ⟨Or.inr hs, hpw⟩
    | false =>
      have hlt : r.bufIdx.toNat < 64 := hwords ▸ hb.write _ (by simp [Fsm.bufWrite, hs, hw])
      have hne : r.bufIdx ≠ r.patchWords.setWidth 7 - 1#7 := by
        intro he
        rw [he, hpw] at hlt
        exact absurd hlt (by decide)
      rw [sInData_next c r d hw hne]
      exact ⟨Or.inr hs, hpw⟩

/-- The input phase is the input load. -/
theorem Rel.endlessLoad {c : Config} {a : Seq} (h : Rel c a b) (hp : a.phase = .input)
    (hpw : c.patchWords = 0) : EndlessLoad b.fsm := by
  cases hs : b.fsm.state <;> rw [Rel, hs] at h
  case inAddr => exact ⟨Or.inl hs, h.2.1.patchWords.trans hpw⟩
  case inData => exact ⟨Or.inr hs, h.2.1.patchWords.trans hpw⟩
  all_goals
    have := h.1.symm.trans hp
    cases this

/-- Another phase is not. -/
theorem Rel.not_endlessLoad {c : Config} {a : Seq} (h : Rel c a b) (hp : a.phase ≠ .input) :
    ¬ EndlessLoad b.fsm := by
  rintro ⟨hs | hs, -⟩ <;> rw [Rel, hs] at h
  · exact hp h.1
  · exact hp h.1

/-- The word path of an oversized patch loads a word beyond the buffer: if it did not, the load
would never end, but the program gets to its next phase. -/
theorem not_inBounds_inData (hs : b.fsm.state = .idle) (hi : StartRun i)
    (hready : ∀ n, (i n).hready = true) (hc : b.dut.cfg.Shape) (h : 252 < b.dut.cfg.taps)
    (hw : b.dut.cfg.WordPath 0) :
    ¬ ∀ n, InBounds b.dut.cfg b.fsm.macIdx (trace step b i n).fsm (i n).hready := by
  intro hall
  set c := b.dut.cfg
  obtain ⟨hpw, hwords⟩ := patchWords_eq_zero hc h
  set a : Seq := { Seq.start b with mem := (b.step (i 0)).effMem }
  have hpath : c.WordPath a.cPos := hw
  have hweights : a.step c = a.weights c := rfl
  have hinput : ((Seq.step c)^[3] a).phase = .input := by
    change (((a.step c).step c).step c).phase = .input
    rw [hweights, Seq.weights, if_pos hpath]
    rfl
  have hnext : ((Seq.step c)^[3] a).step c = ((Seq.step c)^[3] a).input c :=
    Seq.step_of_input hinput
  -- the run gets to the input phase and, in bounds, never leaves it
  obtain ⟨n, hn⟩ := (stutterSim c).exists_trace (rel_start_of_idle hs hi.start)
    (edgeOk_of_ready hi hready) (fun n => ⟨n, le_rfl, hready _⟩) 3
  rw [← trace_one_add] at hn
  have hstay : ∀ m, EndlessLoad (trace step b i (n + 1 + m)).fsm := by
    intro m
    induction m with
    | zero => exact hn.endlessLoad hinput hpw
    | succ m ih =>
      have hb := hall (n + 1 + m)
      rw [hready] at hb
      rw [← Nat.add_assoc, trace_succ, step_fsm, cfg_trace hi, hready]
      exact ih.step hwords hb
  -- but the program goes on
  obtain ⟨m, hm⟩ := (stutterSim c).exists_trace (i := fun k => i (n + 1 + k)) hn
    (fun m => ⟨by rw [Nat.add_right_comm]; exact hi.quiet _, fun _ _ => hready _⟩)
    (fun m => ⟨m, le_rfl, hready _⟩) 1
  rw [← trace_add] at hm
  refine hm.not_endlessLoad ?_ (hstay m)
  rw [Function.iterate_one, hnext]
  change (if 1#16 < c.wOutCnt then Phase.ovlp else .mac) ≠ .input
  split_ifs <;> decide

/-- **In bounds.** For every shape the buffers hold and all addresses, every cycle of every run
from a START in `S_IDLE`, with any stalls, is in bounds if and only if a patch has at most 252
bytes. Then `mac_idx` is below the words of a patch in all cycles if it is at START. -/
theorem patchReads_inBounds_iff (hs : b.fsm.state = .idle) (hc : b.dut.cfg.Shape) :
    b.dut.cfg.words ≤ 64 ∧
      ((∀ i, StartRun i → ∀ n,
        InBounds b.dut.cfg b.fsm.macIdx (trace step b i n).fsm (i n).hready) ↔
          b.dut.cfg.taps ≤ 252) ∧
      (b.dut.cfg.taps ≤ 252 → ∀ i, StartRun i →
        ((∀ n, (trace step b i n).fsm.macIdx.toNat < b.dut.cfg.words) ↔
          b.fsm.macIdx.toNat < b.dut.cfg.words)) := by
  refine ⟨Config.words_le hc,
    ⟨fun h => ?_, fun h252 i hi n => inBounds_trace hs hi hc h252 n⟩,
    fun h252 i hi => ⟨fun h => h 0, fun hm n => ?_⟩⟩
  · by_contra h252
    have hi := startRun_startWithStalls []
    by_cases hw : b.dut.cfg.WordPath 0
    · exact not_inBounds_inData hs hi (fun _ => by simp [startWithStalls]) hc (by omega) hw (h _ hi)
    · exact not_inBounds_wtAddr hs hi hc (by omega) hw (h _ hi 2)
  · rcases (inBounds_trace hs hi hc h252 n).mac with h | ⟨hm₀, -⟩
    · exact h
    · rw [hm₀]
      exact hm

/-- A patch of one byte stays in bounds. -/
theorem patchReads_inBounds_iff_twoOutputs :
    (∀ i, StartRun i → ∀ n,
      InBounds twoOutputs.dut.cfg twoOutputs.fsm.macIdx (trace step twoOutputs i n).fsm
        (i n).hready) ∧
      ∀ i, StartRun i → ∀ n,
        (trace step twoOutputs i n).fsm.macIdx.toNat < twoOutputs.dut.cfg.words := by
  obtain ⟨-, hbounds, hmac⟩ := patchReads_inBounds_iff (b := twoOutputs) rfl valid_twoOutputs.shape
  exact ⟨hbounds.mpr (by decide), fun i hi => (hmac (by decide) i hi).mpr (by decide)⟩

/-- A layer whose patches fill the 64 words of the buffers: 64 channels, four taps. -/
def fullPatch : Bench where
  dut := ⟨{ Config.reset with rCIn := 64, rKW := 4, rWIn := 4 }, .blank⟩
  slave := ⟨false, 0, false, 0, fun _ => 0⟩

/-- **The input load runs past the buffer**: with 256 bytes a patch, in some cycle of a run on an
always-ready slave a word is stored, or read, out of bounds. -/
theorem load_runs_past_buffer :
    fullPatch.fsm.state = .idle ∧ StartRun (startWithStalls []) ∧ fullPatch.dut.cfg.Shape ∧
      ¬ ∀ n, InBounds fullPatch.dut.cfg fullPatch.fsm.macIdx
        (trace step fullPatch (startWithStalls []) n).fsm (startWithStalls [] n).hready := by
  have hc : fullPatch.dut.cfg.Shape :=
    ⟨by decide, by decide, by decide, by decide, by decide, by decide⟩
  exact ⟨rfl, startRun_startWithStalls _, hc,
    not_inBounds_inData rfl (startRun_startWithStalls _) (fun _ => by simp [startWithStalls]) hc
      (by decide) (by decide)⟩

end Bench

end KwsSoc.Conv1dAccel
