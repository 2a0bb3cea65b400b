import KwsSoc.Firmware.Vote
import Mathlib.Algebra.BigOperators.Group.Finset.Basic
import Mathlib.Algebra.Order.BigOperators.Group.Finset

/-! # Vote windows

A window is a stretch of inferences that ends where the gate opens (`window`). **`softVote`**: the
sums compared at an opening are those of the window's confident inferences, and `DETECT` is printed
when it says so, as long as `bytes_written` does not advance by more than
`2 ^ 31 - KWS_PRINT_INTERVAL_RING_BYTES` from one gate check to the next. With an advance of nearly
`2 ^ 31` the gate can miss the time at which it should open; a window may then be so long that its
sums overflow (`sums_overflow`). -/

namespace KwsSoc.Firmware.Vote

open Capture

/-! ## The first maximum -/

/-- `i` is the lowest index below `n` at which `f` is largest. -/
structure IsFirstMax (f : ℕ → ℤ) (n i : ℕ) : Prop where
  lt : i < n
  le : ∀ v < n, f v ≤ f i
  first : ∀ v < i, f v < f i

theorem IsFirstMax.unique {f : ℕ → ℤ} {n i j : ℕ} (hi : IsFirstMax f n i) (hj : IsFirstMax f n j) :
    i = j := by
  rcases lt_trichotomy i j with hlt | heq | hlt
  · exact absurd (hj.first i hlt) (hi.le j hj.lt).not_gt
  · exact heq
  · exact absurd (hi.first j hlt) (hj.le i hi.lt).not_gt

/-- **The loop finds the first maximum**, and its value. -/
theorem isFirstMax_firstMax (f : ℕ → ℤ) (n : ℕ) :
    IsFirstMax f (n + 1) (firstMax f n).1 ∧ (firstMax f n).2 = f (firstMax f n).1 := by
  induction n with
  | zero =>
    refine ⟨⟨Nat.one_pos, fun v hv => ?_, fun v hv => absurd hv v.not_lt_zero⟩, rfl⟩
    rw [Nat.lt_one_iff.mp hv, firstMax]
  | succ n ih =>
    obtain ⟨h, hval⟩ := ih
    rw [firstMax]
    split
    · next hgt =>
      rw [hval] at hgt
      refine ⟨⟨Nat.lt_succ_self _, fun v hv => ?_, fun v hv => ?_⟩, rfl⟩
      · rcases Nat.lt_succ_iff_lt_or_eq.mp hv with hlt | rfl
        · exact (h.le v hlt).trans hgt.le
        · exact le_rfl
      · exact (h.le v hv).trans_lt hgt
    · next hle =>
      rw [hval, not_lt] at hle
      refine ⟨⟨h.lt.trans (Nat.lt_succ_self _), fun v hv => ?_, h.first⟩, hval⟩
      rcases Nat.lt_succ_iff_lt_or_eq.mp hv with hlt | rfl
      · exact h.le v hlt
      · exact hle

theorem firstMax_ge_iff {f : ℕ → ℤ} {n : ℕ} {c : ℤ} :
    (firstMax f n).2 ≥ c ↔ ∃ v < n + 1, c ≤ f v := by
  obtain ⟨h, hval⟩ := isFirstMax_firstMax f n
  constructor
  · intro hge
    exact ⟨_, h.lt, hval ▸ hge⟩
  · rintro ⟨v, hv, hge⟩
    exact hval ▸ hge.trans (h.le v hv)

/-! ## Windows -/

section Windows

variable (ms : ℕ+) (x : ℕ → Pass)

/-- The gate opens in pass `k`. -/
def Opens (k : ℕ) : Prop := (outcome ms x k).any Outcome.printGateOpen = true

instance (k : ℕ) : Decidable (Opens ms x k) := inferInstanceAs (Decidable (_ = true))

/-- The top score of the inference reaches the threshold. -/
def Confident (p : Pass) : Prop := ∃ v < numClasses, kwsConfThresh ≤ p.score v

instance (p : Pass) : Decidable (Confident p) :=
  inferInstanceAs (Decidable (∃ v < numClasses, kwsConfThresh ≤ p.score v))

/-- The window that ends with pass `k`: the gate has not opened from `i` on. -/
def window (k : ℕ) : Finset ℕ :=
  (Finset.range (k + 1)).filter fun i => ∀ j < k, i ≤ j → ¬ Opens ms x j

/-- The window that is still open after `n` passes. -/
def pending (n : ℕ) : Finset ℕ :=
  (Finset.range n).filter fun i => ∀ j < n, i ≤ j → ¬ Opens ms x j

/-- The inferences of a window that are counted. -/
def counted (s : Finset ℕ) : Finset ℕ := s.filter fun i => Confident (x i)

/-- The scores of the counted inferences, added up for class `v`. -/
def classSum (s : Finset ℕ) (v : ℕ) : ℤ := ∑ i ∈ counted x s, (x i).score v

variable {ms x}

theorem window_eq (k : ℕ) : window ms x k = insert k (pending ms x k) := by
  ext i
  simp only [window, pending, Finset.mem_filter, Finset.mem_range, Finset.mem_insert]
  constructor
  · rintro ⟨hi, hno⟩
    rcases Nat.lt_succ_iff_lt_or_eq.mp hi with hlt | heq
    · exact .inr ⟨hlt, hno⟩
    · exact .inl heq
  · rintro (rfl | ⟨hlt, hno⟩)
    · exact ⟨Nat.lt_succ_self i, fun j hj hij => absurd hj hij.not_gt⟩
    · exact ⟨Nat.lt_succ_of_lt hlt, hno⟩

theorem notMem_pending (k : ℕ) : k ∉ pending ms x k := by
  simp [pending]

theorem pending_succ_of_opens {k : ℕ} (h : Opens ms x k) : pending ms x (k + 1) = ∅ := by
  ext i
  simp only [pending, Finset.mem_filter, Finset.mem_range, Finset.notMem_empty, iff_false, not_and]
  exact fun hi hno => hno k (Nat.lt_succ_self k) (Nat.lt_succ_iff.mp hi) h

theorem pending_succ_of_closed {k : ℕ} (h : ¬ Opens ms x k) :
    pending ms x (k + 1) = window ms x k := by
  ext i
  simp only [pending, window, Finset.mem_filter, Finset.mem_range, Nat.lt_succ_iff]
  refine and_congr_right fun _ => ⟨fun hno j hj => hno j hj.le, fun hno j hj hij => ?_⟩
  rcases hj.lt_or_eq with hlt | rfl
  · exact hno j hlt hij
  · exact h

/-- **Every inference is in one window**, if the gate opens at all from then on. -/
theorem existsUnique_window {n i k : ℕ} (hik : i ≤ k) (hk : k < n) (h : Opens ms x k) :
    ∃! j, (j < n ∧ Opens ms x j) ∧ i ∈ window ms x j := by
  -- the first opening from `i` on
  have hex : ∃ j, i ≤ j ∧ Opens ms x j := ⟨k, hik, h⟩
  have hspec := Nat.find_spec hex
  have hmin : ∀ j < Nat.find hex, i ≤ j → ¬ Opens ms x j := fun j hj hij ho =>
    Nat.find_min hex hj ⟨hij, ho⟩
  refine ⟨Nat.find hex, ⟨⟨(Nat.find_min' hex ⟨hik, h⟩).trans_lt hk, hspec.2⟩, ?_⟩, ?_⟩
  · exact Finset.mem_filter.mpr ⟨Finset.mem_range.mpr (Nat.lt_succ_of_le hspec.1), hmin⟩
  · rintro j ⟨⟨-, ho⟩, hmem⟩
    obtain ⟨hij, hno⟩ := Finset.mem_filter.mp hmem
    have hij := Nat.lt_succ_iff.mp (Finset.mem_range.mp hij)
    refine le_antisymm ?_ (Nat.find_min' hex ⟨hij, ho⟩)
    by_contra hlt
    exact hno _ (not_le.mp hlt) hspec.1 hspec.2

/-- What an inference adds to the sum of class `v`. -/
def tally (p : Pass) (v : ℕ) : ℤ := if Confident p then p.score v else 0

theorem classSum_window (k v : ℕ) :
    classSum x (window ms x k) v = classSum x (pending ms x k) v + tally (x k) v := by
  rw [classSum, classSum, counted, counted, Finset.sum_filter, Finset.sum_filter, window_eq,
    Finset.sum_insert (notMem_pending k), add_comm, tally]

theorem card_window (k : ℕ) :
    (counted x (window ms x k)).card =
      (counted x (pending ms x k)).card + if Confident (x k) then 1 else 0 := by
  rw [counted, window_eq, Finset.filter_insert]
  split
  · exact Finset.card_insert_of_notMem fun h => notMem_pending k (Finset.mem_filter.mp h).1
  · rfl

/-- A sum of `n` scores is no larger than `128 * n`. -/
theorem abs_classSum_le (s : Finset ℕ) (v : ℕ) :
    |classSum x s v| ≤ 128 * (counted x s).card := by
  have hscore (i : ℕ) : |(x i).score v| ≤ 128 := by
    have hlow := BitVec.le_toInt ((x i).nnomOutputData v)
    have hhigh := BitVec.toInt_lt (x := (x i).nnomOutputData v)
    rw [Pass.score, abs_le]
    omega
  calc |classSum x s v| ≤ ∑ i ∈ counted x s, |(x i).score v| := Finset.abs_sum_le_sum_abs _ _
    _ ≤ ∑ _i ∈ counted x s, 128 := Finset.sum_le_sum fun i _ => hscore i
    _ = 128 * (counted x s).card := by rw [Finset.sum_const, nsmul_eq_mul, mul_comm]

/-- What the firmware is to do in its first `n` passes. -/
structure SoftVote (ms : ℕ+) (x : ℕ → Pass) (n : ℕ) : Prop where
  /-- No sum overflows. -/
  defined : ∀ k < n, ∃ o, outcome ms x k = some o
  /-- The sums compared at an opening are those of its window. -/
  sums : ∀ k < n, ∀ o ∈ outcome ms x k, o.printGateOpen = true →
    ∀ v < numClasses, o.voteScoreSum v = classSum x (window ms x k) v
  /-- `DETECT` names the first maximum and the count of a window with enough clips. -/
  detect : ∀ k < n, ∀ o ∈ outcome ms x k, ∀ c m, o.detect = some (c, m) ↔
    Opens ms x k ∧ m = (counted x (window ms x k)).card ∧ kwsMinVoteClips ≤ m ∧
      IsFirstMax (classSum x (window ms x k)) numClasses c ∧ c ≠ numClasses - 1
  /-- No inference is in two windows, or in none. -/
  once : ∀ i k, i ≤ k → k < n → Opens ms x k →
    ∃! j, (j < n ∧ Opens ms x j) ∧ i ∈ window ms x j
  apart : ∀ j k, j < k → k < n → Opens ms x j → Opens ms x k →
    (x j).gate + (kwsPrintIntervalRingBytes ms).toNat ≤ (x k).gate

end Windows

/-! ## One pass -/

section Pass

variable {ms : ℕ+} {l l' : Loop} {p : Pass} {o : Outcome}

/-- The accumulators after an inference. -/
def Loop.count (l : Loop) (p : Pass) : Loop :=
  { l with
    voteScoreSum := fun v => l.voteScoreSum v + tally p v
    voteNClips := l.voteNClips + if Confident p then 1 else 0 }

/-- The sums fit an `int32_t` after an inference that is counted. -/
def Loop.Fits (l : Loop) (p : Pass) : Prop :=
  Confident p → ∀ v < numClasses,
    -2 ^ 31 ≤ l.voteScoreSum v + p.score v ∧ l.voteScoreSum v + p.score v < 2 ^ 31

theorem firstMax_ge_iff_confident :
    (firstMax p.score (numClasses - 1)).2 ≥ kwsConfThresh ↔ Confident p := firstMax_ge_iff

theorem Loop.accumulate_eq (h : l.Fits p) : l.accumulate p = some (l.count p) := by
  rw [accumulate]
  by_cases hc : Confident p
  · rw [if_pos (firstMax_ge_iff_confident.mpr hc)]
    simp only [if_pos (h hc), count, tally, if_pos hc]
  · rw [if_neg (firstMax_ge_iff_confident.not.mpr hc)]
    simp only [count, tally, if_neg hc, add_zero, BitVec.ofNat_eq_ofNat, BitVec.add_zero]

theorem Loop.accumulate_eq_none (h : ¬ l.Fits p) : l.accumulate p = none := by
  rw [Fits, Classical.not_imp] at h
  rw [accumulate, if_pos (firstMax_ge_iff_confident.mpr h.1)]
  exact if_neg h.2

/-- A step is at least 160 bytes and at most a clip. -/
theorem stepBytes_bounds (a : BitVec 32) :
    160 ≤ (defaultBuild.stepBytes a).toNat ∧
      (defaultBuild.stepBytes a).toNat ≤ defaultBuild.clip := by
  have hmin : (BitVec.ofNat 32 (ringHz / 50)).toNat = 160 := rfl
  have hclip : (BitVec.ofNat 32 defaultBuild.clip).toNat = 8000 := rfl
  have hclip' : defaultBuild.clip = 8000 := rfl
  simp only [Build.stepBytes, defaultBuild, gt_iff_lt, BitVec.lt_def] at *
  split <;> split <;> omega

theorem Loop.checkLoss_eq (l : Loop) (r : Reads) :
    l.checkLoss r = { l with bytesAtNextInference := (l.checkLoss r).bytesAtNextInference } := by
  rw [checkLoss]
  split <;> rfl

theorem Loop.vote_fst (l : Loop) (r : Reads) :
    (l.vote ms r).1 =
      if l.printGateOpen ms r then
        { l with lastPrintBw := .ofNat 32 r.reset, voteNClips := 0, voteScoreSum := fun _ => 0 }
      else l :=
  rfl

/-- **`DETECT`** is printed when the gate opens on a window with enough clips whose first maximum is
a word. -/
theorem Loop.vote_detect (l : Loop) (r : Reads) (c : ℕ) (m : ℤ) :
    (l.vote ms r).2.detect = some (c, m) ↔
      l.printGateOpen ms r = true ∧ m = l.voteNClips.toInt ∧ kwsMinVoteClips ≤ m ∧
        IsFirstMax l.voteScoreSum numClasses c ∧ c ≠ numClasses - 1 := by
  have hmax : IsFirstMax l.voteScoreSum numClasses (firstMax l.voteScoreSum (numClasses - 1)).1 :=
    (isFirstMax_firstMax l.voteScoreSum (numClasses - 1)).1
  rw [vote]
  by_cases hvote : l.printGateOpen ms r = true ∧ l.voteNClips.toInt ≥ kwsMinVoteClips
  · obtain ⟨hopen, henough⟩ := hvote
    simp only [hopen, henough, true_and, and_true, if_true]
    constructor
    · intro h
      split at h
      · next hword =>
        cases h
        exact ⟨rfl, henough, hmax, hword⟩
      · cases h
    · rintro ⟨rfl, -, hfirst, hword⟩
      rw [← hmax.unique hfirst] at hword ⊢
      exact if_pos hword
  · have hno : ¬ ((l.voteNClips.toInt ≥ kwsMinVoteClips ∧ numClasses - 1 ≠ numClasses - 1) ∧
        l.printGateOpen ms r = true) := fun h => h.1.2 rfl
    simp only [if_neg hvote, if_neg hno, reduceCtorEq, false_iff]
    rintro ⟨hopen, rfl, henough, -, -⟩
    exact hvote ⟨hopen, henough⟩

/-- What a pass does: the next window is a step further on, and the vote is taken on the
accumulators, which are set back when the gate opens. -/
structure Iterated (ms : ℕ+) (l : Loop) (p : Pass) (l' : Loop) (o : Outcome) : Prop where
  next : l'.bytesAtNextInference = (l.checkLoss p.toReads).bytesAtNextInference +
    defaultBuild.stepBytes (.ofNat 32 p.now - .ofNat 32 p.iterStart)
  gate : o.printGateOpen = l.printGateOpen ms p.toReads
  compared : o.voteScoreSum = (l.count p).voteScoreSum
  detect : ∀ c m, o.detect = some (c, m) ↔
    l.printGateOpen ms p.toReads = true ∧ m = (l.count p).voteNClips.toInt ∧ kwsMinVoteClips ≤ m ∧
      IsFirstMax (l.count p).voteScoreSum numClasses c ∧ c ≠ numClasses - 1
  opened : l.printGateOpen ms p.toReads = true →
    l'.lastPrintBw = .ofNat 32 p.reset ∧ l'.voteScoreSum = (fun _ => 0) ∧ l'.voteNClips = 0
  closed : ¬ l.printGateOpen ms p.toReads = true →
    l'.lastPrintBw = l.lastPrintBw ∧ l'.voteScoreSum = (l.count p).voteScoreSum ∧
      l'.voteNClips = (l.count p).voteNClips

/-- **A pass**, where no sum overflows. -/
theorem Loop.iterate_spec (ms : ℕ+) (h : l.Fits p) :
    ∃ l' o, l.iterate ms p = some (l', o) ∧ Iterated ms l p l' o := by
  have hfits : (l.checkLoss p.toReads).Fits p := by
    rw [checkLoss]
    split <;> exact h
  have hiter : l.iterate ms p =
      some ((((l.checkLoss p.toReads).count p).vote ms p.toReads).1.advance p.toReads,
        (((l.checkLoss p.toReads).count p).vote ms p.toReads).2) := by
    rw [iterate, accumulate_eq hfits]
    rfl
  refine ⟨_, _, hiter, ?_⟩
  rw [checkLoss_eq]
  generalize hnext : (l.checkLoss p.toReads).bytesAtNextInference = next
  have hgate : ({ l with bytesAtNextInference := next }.count p).printGateOpen ms p.toReads =
      l.printGateOpen ms p.toReads := rfl
  refine ⟨?_, rfl, rfl, fun c m => vote_detect _ _ c m, fun hopen => ?_, fun hclosed => ?_⟩
  · rw [advance, hnext, vote_fst]
    split <;> rfl
  · rw [vote_fst, hgate, if_pos hopen]
    exact ⟨rfl, rfl, rfl⟩
  · rw [vote_fst, hgate, if_neg hclosed]
    exact ⟨rfl, rfl, rfl⟩

theorem Loop.iterate_eq_none (h : ¬ l.Fits p) : l.iterate ms p = none := by
  have hfits : ¬ (l.checkLoss p.toReads).Fits p := by
    rw [checkLoss]
    split <;> exact h
  rw [iterate, accumulate_eq_none hfits]
  rfl

theorem Loop.of_iterate (h : l.iterate ms p = some (l', o)) : Iterated ms l p l' o := by
  by_cases hfits : l.Fits p
  · obtain ⟨l₁, o₁, hiter, hspec⟩ := iterate_spec ms hfits
    cases hiter.symm.trans h
    exact hspec
  · rw [iterate_eq_none hfits] at h
    cases h

end Pass

/-! ## How long a window can be -/

/-- The signed difference of two counters, up to wrap-around. -/
theorem exists_toInt_sub (a : ℕ) (b : BitVec 32) :
    ∃ q : ℤ, (BitVec.ofNat 32 a - b).toInt = a - b.toNat + 2 ^ 32 * q ∧
      -2 ^ 31 ≤ a - b.toNat + 2 ^ 32 * q ∧ a - b.toNat + 2 ^ 32 * q < 2 ^ 31 := by
  have hlow := BitVec.le_toInt (BitVec.ofNat 32 a - b)
  have hhigh := BitVec.toInt_lt (x := BitVec.ofNat 32 a - b)
  have hmod : (BitVec.ofNat 32 a - b).toInt = Int.bmod (a - b.toNat) (2 ^ 32) := by
    rw [BitVec.toInt_sub, BitVec.toInt_ofNat', Int.bmod_sub_bmod, BitVec.toInt_eq_toNat_bmod,
      Int.sub_bmod_bmod]
  obtain ⟨q, hq⟩ : ∃ q : ℤ, Int.bmod (a - b.toNat) (2 ^ 32) = a - b.toNat + 2 ^ 32 * q := by
    refine ⟨-((a - b.toNat : ℤ).bdiv (2 ^ 32)), ?_⟩
    have := Int.bmod_add_bdiv (a - b.toNat) (2 ^ 32)
    push_cast at this ⊢
    omega
  rw [hmod, hq] at hlow hhigh
  exact ⟨q, hmod.trans hq, hlow, hhigh⟩

theorem toNat_sub_of_le {a b : ℕ} (h : b ≤ a) :
    (BitVec.ofNat 32 a - BitVec.ofNat 32 b).toNat = (a - b) % 2 ^ 32 := by
  rw [BitVec.toNat_sub, BitVec.toNat_ofNat, BitVec.toNat_ofNat]
  omega

theorem Reads.Ordered.wait_le_gate {r : Reads} (h : r.Ordered) : r.wait ≤ r.gate :=
  (h.wait_le.trans h.iterStart_le).trans (h.loss_le.trans h.resync_le)

theorem Reads.Ordered.gate_le_now {r : Reads} (h : r.Ordered) : r.gate ≤ r.now :=
  h.gate_le.trans h.reset_le

section Mark

variable {l l' : Loop} {r r' : Reads}

/-- Where a pass is, in bytes: at the end of its window, or half the range of the counters further
on if the wait was over although the window was over long before. -/
def Loop.mark (l : Loop) (r : Reads) : ℤ :=
  let lag := (BitVec.ofNat 32 r.loss - l.bytesAtNextInference).toInt
  if lag > defaultBuild.clip then r.resync
  else if 0 ≤ lag then r.loss - lag
  else r.loss - lag - 2 ^ 31 - defaultBuild.clip - 160

theorem Loop.mark_le (l : Loop) (ho : r.Ordered) : l.mark r ≤ r.gate := by
  have hloss := ho.loss_le
  have hresync := ho.resync_le
  have hlow := BitVec.le_toInt (BitVec.ofNat 32 r.loss - l.bytesAtNextInference)
  rw [mark]
  simp only [show defaultBuild.clip = 8000 from rfl]
  split_ifs <;> omega

theorem Loop.le_mark (ho : r.Ordered) (hr : l.Ready r) : (r.wait : ℤ) - 8160 ≤ l.mark r := by
  have h₁ := ho.wait_le
  have h₂ := ho.iterStart_le
  have h₃ := ho.loss_le
  rw [Ready, not_lt] at hr
  obtain ⟨w, hw, -, hw₁⟩ := exists_toInt_sub r.wait l.bytesAtNextInference
  obtain ⟨q, hq, hq₁, -⟩ := exists_toInt_sub r.loss l.bytesAtNextInference
  rw [mark]
  simp only [show defaultBuild.clip = 8000 from rfl]
  split_ifs <;> omega

/-- **Each pass is at least 160 bytes further on than the last one.** -/
theorem Loop.mark_next {step : BitVec 32} (ho : r.Ordered) (ho' : r'.Ordered) (hgrows : r.now ≤ r'.wait)
    (hr : l'.Ready r') (hmin : 160 ≤ step.toNat) (hmax : step.toNat ≤ defaultBuild.clip)
    (hnext : l'.bytesAtNextInference = (l.checkLoss r).bytesAtNextInference + step) :
    l.mark r + 160 ≤ l'.mark r' := by
  have h₁ := ho.resync_le
  have h₂ := ho.gate_le
  have h₃ := ho.reset_le
  have h₄ := ho.loss_le
  have h₁' := ho'.wait_le
  have h₂' := ho'.iterStart_le
  have h₃' := ho'.loss_le
  have hclip : defaultBuild.clip = 8000 := rfl
  rw [Ready, not_lt] at hr
  obtain ⟨q, hq, hq₁, hq₂⟩ := exists_toInt_sub r.loss l.bytesAtNextInference
  obtain ⟨q', hq', hq'₁, hq'₂⟩ := exists_toInt_sub r'.loss l'.bytesAtNextInference
  obtain ⟨w, hw, hw₁, hw₂⟩ := exists_toInt_sub r'.wait l'.bytesAtNextInference
  have hnext := congrArg BitVec.toNat hnext
  rw [BitVec.toNat_add] at hnext
  rw [mark, mark]
  simp only [hclip] at hmax ⊢
  rw [checkLoss, hclip] at hnext
  by_cases hloss : (BitVec.ofNat 32 r.loss - l.bytesAtNextInference).toInt > (8000 : ℕ)
  · rw [if_pos hloss, BitVec.toNat_ofNat] at hnext
    rw [if_pos hloss]
    split_ifs <;> omega
  · rw [if_neg hloss] at hnext
    rw [if_neg hloss]
    split_ifs <;> omega

end Mark

theorem interval_le (ms : ℕ+) : (kwsPrintIntervalRingBytes ms).toNat ≤ 4294967 := by
  have hlt := (BitVec.ofNat 32 ringHz * .ofNat 32 ms).isLt
  rw [kwsPrintIntervalRingBytes, BitVec.toNat_udiv, show (1000 : BitVec 32).toNat = 1000 from rfl]
  omega

theorem Loop.printGateOpen_iff (ms : ℕ+) (l : Loop) (r : Reads) :
    l.printGateOpen ms r = true ↔
      (kwsPrintIntervalRingBytes ms).toNat ≤ (BitVec.ofNat 32 r.gate - l.lastPrintBw).toInt := by
  have hle := interval_le ms
  rw [printGateOpen, decide_eq_true_iff, ge_iff_le, BitVec.toInt_eq_toNat_of_lt (by omega)]

/-- `bytes_written` advances by at most `2 ^ 31 - KWS_PRINT_INTERVAL_RING_BYTES` from one gate check
to the next. -/
def Slow (ms : ℕ+) (x : ℕ → Pass) (n : ℕ) : Prop :=
  ∀ k, k + 1 < n → (x (k + 1)).gate ≤ (x k).gate + (2 ^ 31 - (kwsPrintIntervalRingBytes ms).toNat)

section Runs

variable {ms : ℕ+} {x : ℕ → Pass} {n : ℕ} {l : Loop}

theorem run_succ_eq_some {l' : Loop} (h : run ms x (n + 1) = some l') :
    ∃ l o, run ms x n = some l ∧ l.iterate ms (x n) = some (l', o) ∧ outcome ms x n = some o := by
  obtain ⟨l, hl, h⟩ := Option.bind_eq_some_iff.mp h
  obtain ⟨⟨l'', o⟩, ho, h⟩ := Option.bind_eq_some_iff.mp h
  cases h
  refine ⟨l, o, hl, ho, ?_⟩
  rw [outcome, hl, Option.bind_eq_bind, Option.bind_some, ho]
  rfl

theorem run_of_le {l' : Loop} (h : run ms x n = some l') {k : ℕ} (hk : k ≤ n) :
    ∃ l, run ms x k = some l := by
  induction n generalizing l' with
  | zero => exact ⟨l', by rwa [Nat.le_zero.mp hk]⟩
  | succ n ih =>
    rcases hk.lt_or_eq with hlt | rfl
    · obtain ⟨l, -, hl, -⟩ := run_succ_eq_some h
      exact ih hl (Nat.lt_succ_iff.mp hlt)
    · exact ⟨l', h⟩

/-- The outcome of a pass says whether the gate opens in it. -/
theorem opens_iff {l' : Loop} (hl : run ms x n = some l) (hl' : run ms x (n + 1) = some l') :
    Opens ms x n ↔ l.printGateOpen ms (x n).toReads = true := by
  obtain ⟨l₀, o, hl₀, hiter, hout⟩ := run_succ_eq_some hl'
  obtain rfl : l₀ = l := Option.some.inj (hl₀.symm.trans hl)
  rw [Opens, hout, Option.any_some, (Loop.of_iterate hiter).gate]

/-- From pass to pass, 160 bytes. -/
theorem mark_add_le (hrun : IsRun ms x n) {i j : ℕ} (hij : i ≤ j) (hj : j < n) {lᵢ lⱼ : Loop}
    (hᵢ : run ms x i = some lᵢ) (hⱼ : run ms x j = some lⱼ) :
    lᵢ.mark (x i).toReads + 160 * (j - i : ℕ) ≤ lⱼ.mark (x j).toReads := by
  induction j, hij using Nat.le_induction generalizing lⱼ with
  | base =>
    obtain rfl : lᵢ = lⱼ := Option.some.inj (hᵢ.symm.trans hⱼ)
    simp
  | succ j hij ih =>
    obtain ⟨l, o, hl, hiter, -⟩ := run_succ_eq_some hⱼ
    have hle := ih (by omega) hl
    obtain ⟨hmin, hmax⟩ := stepBytes_bounds (.ofNat 32 (x j).now - .ofNat 32 (x j).iterStart)
    have hmark := Loop.mark_next (hrun.ordered j (by omega)) (hrun.ordered (j + 1) hj)
      (hrun.grows (j + 1) hj) (hrun.ready (j + 1) hj lⱼ hⱼ) hmin hmax (Loop.of_iterate hiter).next
    omega

/-- **While the gate stays closed**, it has been set back less than `KWS_PRINT_INTERVAL_RING_BYTES`
ago, or was missed once and will open before the counter gets there again. -/
theorem gate_stretch (hrun : IsRun ms x n) (hslow : Slow ms x n) (hl : run ms x n = some l) {i j : ℕ}
    (hclosed : ∀ j < n, i ≤ j → ¬ Opens ms x j) (hij : i ≤ j) (hj : j < n) {lᵢ lⱼ : Loop}
    (hᵢ : run ms x i = some lᵢ) (hⱼ : run ms x j = some lⱼ) :
    let interval := (kwsPrintIntervalRingBytes ms).toNat
    let since := (BitVec.ofNat 32 (x i).gate - lᵢ.lastPrintBw).toNat
    lⱼ.lastPrintBw = lᵢ.lastPrintBw ∧ (x i).gate ≤ (x j).gate ∧
      (since + ((x j).gate - (x i).gate) < interval ∨
        2 ^ 31 ≤ since ∧ since + ((x j).gate - (x i).gate) < 2 ^ 32 + interval) := by
  intro interval since
  have hinterval : interval ≤ 4294967 := interval_le ms
  -- a closed gate, in the terms of the counters
  have hshut {k : ℕ} (hk : k < n) (hik : i ≤ k) {lₖ : Loop} (hₖ : run ms x k = some lₖ) :
      ¬ (interval : ℤ) ≤ (BitVec.ofNat 32 (x k).gate - lₖ.lastPrintBw).toInt := by
    obtain ⟨l', hl'⟩ := run_of_le hl (Nat.succ_le_of_lt hk)
    rw [← Loop.printGateOpen_iff, ← opens_iff hₖ hl']
    exact hclosed k hk hik
  induction j, hij using Nat.le_induction generalizing lⱼ with
  | base =>
    obtain rfl : lᵢ = lⱼ := Option.some.inj (hᵢ.symm.trans hⱼ)
    have hno := hshut hj le_rfl hᵢ
    rw [BitVec.toInt_eq_toNat_cond] at hno
    refine ⟨rfl, le_rfl, ?_⟩
    omega
  | succ j hij ih =>
    obtain ⟨lₖ, o, hₖ, hiter, -⟩ := run_succ_eq_some hⱼ
    obtain ⟨hlast, hle, hsince⟩ := ih (by omega) hₖ
    have hclosedⱼ : ¬ lₖ.printGateOpen ms (x j).toReads = true :=
      (opens_iff hₖ hⱼ).not.mp (hclosed j (by omega) hij)
    have hlast' : lⱼ.lastPrintBw = lᵢ.lastPrintBw :=
      ((Loop.of_iterate hiter).closed hclosedⱼ).1.trans hlast
    have hno := hshut hj (by omega) hⱼ
    have hgrows : (x j).gate ≤ (x (j + 1)).gate :=
      ((hrun.ordered j (by omega)).gate_le_now.trans (hrun.grows (j + 1) hj)).trans
        (hrun.ordered (j + 1) hj).wait_le_gate
    have hadv := hslow j hj
    have hdist : (BitVec.ofNat 32 (x (j + 1)).gate - lⱼ.lastPrintBw).toNat =
        (since + ((x (j + 1)).gate - (x i).gate)) % 2 ^ 32 := by
      rw [hlast']
      simp only [since, BitVec.toNat_sub, BitVec.toNat_ofNat]
      omega
    rw [BitVec.toInt_eq_toNat_cond, hdist] at hno
    refine ⟨hlast', hle.trans hgrows, ?_⟩
    omega

/-- **A window is short**, as long as the gate cannot be missed. -/
theorem sub_le_of_mem_pending (hrun : IsRun ms x n) (hslow : Slow ms x n)
    (hl : run ms x n = some l) {i : ℕ} (hi : i ∈ pending ms x n) : n - i ≤ 13448669 := by
  obtain ⟨hin, hclosed⟩ := Finset.mem_filter.mp hi
  have hin := Finset.mem_range.mp hin
  have hinterval := interval_le ms
  rcases Nat.lt_or_ge (i + 1) n with hlt | hge
  · -- from the pass after the first one to the last one
    obtain ⟨lᵢ, hᵢ⟩ := run_of_le hl hin.le
    obtain ⟨l₁, h₁⟩ := run_of_le hl hlt.le
    obtain ⟨lⱼ, hⱼ⟩ := run_of_le hl (Nat.sub_le n 1)
    have ho := hrun.ordered (i + 1) hlt
    have hmark := mark_add_le hrun (by omega : i + 1 ≤ n - 1) (by omega) h₁ hⱼ
    have hfirst := Loop.le_mark ho (hrun.ready (i + 1) hlt l₁ h₁)
    have hlast := lⱼ.mark_le (hrun.ordered (n - 1) (by omega))
    have hgate := (hrun.ordered i hin).gate_le_now.trans (hrun.grows (i + 1) hlt)
    obtain ⟨-, -, hsince⟩ :=
      gate_stretch hrun hslow hl hclosed (by omega : i ≤ n - 1) (by omega) hᵢ hⱼ
    omega
  · omega

theorem card_window_le (hrun : IsRun ms x n) (hslow : Slow ms x n) (hl : run ms x n = some l) :
    (window ms x n).card ≤ 13448670 := by
  have hsub : pending ms x n ⊆ Finset.Ico (n - 13448669) n := by
    intro i hi
    have hle := sub_le_of_mem_pending hrun hslow hl hi
    have hlt := Finset.mem_range.mp (Finset.mem_filter.mp hi).1
    exact Finset.mem_Ico.mpr ⟨by omega, hlt⟩
  have hcard := Finset.card_le_card hsub
  rw [Nat.card_Ico] at hcard
  rw [window_eq, Finset.card_insert_of_notMem (notMem_pending n)]
  omega

/-! ## Runs -/

/-- **What the statics hold after `n` passes**: the sums and the count of the open window, and a
value of `bytes_written` since the last opening. -/
structure Inv (ms : ℕ+) (x : ℕ → Pass) (n : ℕ) (l : Loop) : Prop where
  sums : l.voteScoreSum = classSum x (pending ms x n)
  clips : l.voteNClips = .ofNat 32 (counted x (pending ms x n)).card
  last : ∃ b ≤ written x n, l.lastPrintBw = .ofNat 32 b ∧
    ∀ j < n, Opens ms x j → (x j).gate ≤ b

/-- After an inference, the accumulators hold its window. -/
theorem Inv.count (h : Inv ms x n l) :
    (l.count (x n)).voteScoreSum = classSum x (window ms x n) ∧
      (l.count (x n)).voteNClips = .ofNat 32 (counted x (window ms x n)).card := by
  constructor
  · funext v
    rw [classSum_window, ← h.sums]
    rfl
  · rw [card_window, BitVec.ofNat_add, ← h.clips]
    show l.voteNClips + _ = _
    split <;> rfl

theorem Inv.fits (h : Inv ms x n l) (hrun : IsRun ms x n) (hslow : Slow ms x n)
    (hl : run ms x n = some l) : l.Fits (x n) := by
  intro hc v _
  have hsum : l.voteScoreSum v + (x n).score v = classSum x (window ms x n) v := by
    rw [classSum_window, h.sums, tally, if_pos hc]
  have habs := abs_le.mp (abs_classSum_le (x := x) (window ms x n) v)
  have hcard : (counted x (window ms x n)).card ≤ 13448670 :=
    (Finset.card_filter_le _ _).trans (card_window_le hrun hslow hl)
  rw [hsum]
  omega

theorem IsRun.mono (h : IsRun ms x n) {k : ℕ} (hk : k ≤ n) : IsRun ms x k :=
  ⟨fun j hj => h.ordered j (hj.trans_le hk), fun j hj => h.grows j (hj.trans_le hk),
    fun j hj => h.ready j (hj.trans_le hk)⟩

theorem Slow.mono (h : Slow ms x n) {k : ℕ} (hk : k ≤ n) : Slow ms x k :=
  fun j hj => h j (hj.trans_le hk)

/-- **One pass more**: it is defined, and the accumulators hold the window that is open then. -/
theorem Inv.step (h : Inv ms x n l) (hrun : IsRun ms x (n + 1)) (hslow : Slow ms x (n + 1))
    (hl : run ms x n = some l) :
    ∃ l', run ms x (n + 1) = some l' ∧ Inv ms x (n + 1) l' := by
  have hfits := h.fits (hrun.mono n.le_succ) (hslow.mono n.le_succ) hl
  obtain ⟨l', o, hiter, hspec⟩ := Loop.iterate_spec ms hfits
  obtain ⟨hsums, hclips⟩ := h.count
  obtain ⟨b, hb, hlast, hgates⟩ := h.last
  have ho := hrun.ordered n n.lt_succ_self
  have hl' : run ms x (n + 1) = some l' := by
    rw [run, hl, Option.bind_eq_bind, Option.bind_some, hiter]
    rfl
  refine ⟨l', hl', ?_⟩
  have hwritten : written x n ≤ (x n).gate :=
    (hrun.grows n n.lt_succ_self).trans ho.wait_le_gate
  by_cases hopen : Opens ms x n
  · obtain ⟨hreset, hsums', hclips'⟩ := hspec.opened ((opens_iff hl hl').mp hopen)
    refine ⟨?_, ?_, ⟨(x n).reset, ho.reset_le, hreset, fun j hj hj' => ?_⟩⟩
    · rw [hsums', pending_succ_of_opens hopen]
      rfl
    · rw [hclips', pending_succ_of_opens hopen]
      rfl
    · rcases Nat.lt_succ_iff_lt_or_eq.mp hj with hlt | rfl
      · exact (((hgates j hlt hj').trans hb).trans hwritten).trans ho.gate_le
      · exact ho.gate_le
  · obtain ⟨hkept, hsums', hclips'⟩ := hspec.closed ((opens_iff hl hl').not.mp hopen)
    refine ⟨?_, ?_, ⟨b, (hb.trans hwritten).trans ho.gate_le_now, hkept.trans hlast,
      fun j hj hj' => ?_⟩⟩
    · rw [hsums', hsums, pending_succ_of_closed hopen]
    · rw [hclips', hclips, pending_succ_of_closed hopen]
    · rcases Nat.lt_succ_iff_lt_or_eq.mp hj with hlt | rfl
      · exact hgates j hlt hj'
      · exact absurd hj' hopen

/-- **Every run.** -/
theorem inv_run (hrun : IsRun ms x n) (hslow : Slow ms x n) :
    ∃ l, run ms x n = some l ∧ Inv ms x n l := by
  induction n with
  | zero => exact ⟨.start, rfl, rfl, rfl, 0, le_rfl, rfl, fun j hj => absurd hj j.not_lt_zero⟩
  | succ n ih =>
    obtain ⟨l, hl, h⟩ := ih (hrun.mono n.le_succ) (hslow.mono n.le_succ)
    exact h.step hrun hslow hl

/-- **Openings are an interval apart.** -/
theorem Inv.apart (h : Inv ms x n l) (hrun : IsRun ms x (n + 1)) (hl : run ms x n = some l)
    {l' : Loop} (hl' : run ms x (n + 1) = some l') (hopen : Opens ms x n) {j : ℕ} (hj : j < n)
    (hj' : Opens ms x j) :
    (x j).gate + (kwsPrintIntervalRingBytes ms).toNat ≤ (x n).gate := by
  obtain ⟨b, hb, hlast, hgates⟩ := h.last
  have hgate := (Loop.printGateOpen_iff ms l (x n).toReads).mp ((opens_iff hl hl').mp hopen)
  have hle : b ≤ (x n).gate :=
    (hb.trans (hrun.grows n n.lt_succ_self)).trans (hrun.ordered n n.lt_succ_self).wait_le_gate
  have hfrom := hgates j hj hj'
  rw [hlast, BitVec.toInt_eq_toNat_cond, toNat_sub_of_le hle] at hgate
  have hmod := Nat.mod_le ((x n).gate - b) (2 ^ 32)
  split at hgate <;> omega

/-- **Soft-vote windows**, in every run. -/
theorem softVote (ms : ℕ+) (x : ℕ → Pass) (n : ℕ) (hrun : IsRun ms x n) (hslow : Slow ms x n) :
    SoftVote ms x n := by
  -- what a pass does, with the windows for the accumulators
  have hpass : ∀ k < n, ∃ l l' o, run ms x k = some l ∧ run ms x (k + 1) = some l' ∧
      outcome ms x k = some o ∧ Inv ms x k l ∧ Iterated ms l (x k) l' o := by
    intro k hk
    obtain ⟨l, hl, h⟩ := inv_run (hrun.mono hk.le) (hslow.mono hk.le)
    obtain ⟨l', hl', -⟩ := inv_run (hrun.mono hk) (hslow.mono hk)
    obtain ⟨l₀, o, hl₀, hiter, hout⟩ := run_succ_eq_some hl'
    obtain rfl : l₀ = l := Option.some.inj (hl₀.symm.trans hl)
    exact ⟨l₀, l', o, hl, hl', hout, h, Loop.of_iterate hiter⟩
  refine ⟨fun k hk => ?_, fun k hk o ho hopen v hv => ?_, fun k hk o ho c m => ?_,
    fun i k hik hk hopen => existsUnique_window hik hk hopen, fun j k hjk hk hj hopen => ?_⟩
  · obtain ⟨-, -, o, -, -, hout, -⟩ := hpass k hk
    exact ⟨o, hout⟩
  · obtain ⟨l, l', o', hl, hl', hout, h, hspec⟩ := hpass k hk
    obtain rfl : o' = o := Option.some.inj (hout.symm.trans ho)
    rw [hspec.compared, h.count.1]
  · obtain ⟨l, l', o', hl, hl', hout, h, hspec⟩ := hpass k hk
    obtain rfl : o' = o := Option.some.inj (hout.symm.trans ho)
    have hcard : (counted x (window ms x k)).card ≤ 13448670 :=
      (Finset.card_filter_le _ _).trans (card_window_le (hrun.mono hk.le) (hslow.mono hk.le) hl)
    have hclips : (l.count (x k)).voteNClips.toInt = (counted x (window ms x k)).card := by
      rw [h.count.2, BitVec.toInt_eq_toNat_of_lt] <;> rw [BitVec.toNat_ofNat] <;> omega
    rw [hspec.detect, hclips, h.count.1, opens_iff hl hl']
  · obtain ⟨l, l', -, hl, hl', -, h, -⟩ := hpass k hk
    exact h.apart (hrun.mono hk) hl hl' hopen hjk hj

end Runs

/-! ## Two runs -/

section Paced

variable {ms : ℕ+} {b : ℕ → ℕ}

/-- The first class has the top score, and `bytes_written` grows during the waits only. -/
def down (b : ℕ → ℕ) (k : ℕ) : Pass where
  wait := b k
  iterStart := b k
  loss := b k
  resync := b k
  gate := b k
  reset := b k
  now := b k
  nnomOutputData v := if v = 0 then 127 else 0

theorem score_down (b : ℕ → ℕ) (k v : ℕ) : (down b k).score v = if v = 0 then 127 else 0 := by
  show (if v = 0 then (127 : BitVec 8) else 0).toInt = _
  split <;> rfl

theorem confident_down (b : ℕ → ℕ) (k : ℕ) : Confident (down b k) := by
  refine ⟨0, by decide, ?_⟩
  rw [score_down]
  decide

/-- The end of the next window after `n` passes, each of which takes a minimal step. -/
def target (b : ℕ → ℕ) : ℕ → ℕ
  | 0 => defaultBuild.clip
  | n + 1 => b n + 160

/-- Each wait ends at the end of its window, or so late that the window is moved there. -/
def Paced (b : ℕ → ℕ) : Prop :=
  ∀ n, b n = target b n ∨ target b n + defaultBuild.clip < b n ∧ b n < target b n + 2 ^ 31

theorem Paced.le (h : Paced b) (n : ℕ) : target b n ≤ b n := by
  rcases h n with heq | ⟨hlt, -⟩ <;> omega

/-- The lag of a pass. -/
theorem Paced.lag (h : Paced b) (n : ℕ) :
    (BitVec.ofNat 32 (b n) - BitVec.ofNat 32 (target b n)).toInt = (b n - target b n : ℕ) := by
  have hn := h n
  have hmod : (b n - target b n) % 2 ^ 32 = b n - target b n := Nat.mod_eq_of_lt (by omega)
  rw [BitVec.toInt_eq_toNat_of_lt] <;> rw [toNat_sub_of_le (h.le n), hmod]
  omega

theorem Paced.checkLoss (h : Paced b) {n : ℕ} {l : Loop}
    (hl : l.bytesAtNextInference = .ofNat 32 (target b n)) :
    (l.checkLoss (down b n).toReads).bytesAtNextInference = .ofNat 32 (b n) := by
  have hlag := h.lag n
  rw [Loop.checkLoss, hl]
  show (if (BitVec.ofNat 32 (b n) - BitVec.ofNat 32 (target b n)).toInt > defaultBuild.clip then _
    else _ : Loop).bytesAtNextInference = _
  rw [hlag]
  split
  · rfl
  · rcases h n with heq | ⟨hlt, -⟩
    · rw [hl, heq]
    · omega

theorem Paced.bytesAtNextInference (h : Paced b) {n : ℕ} {l : Loop}
    (hl : run ms (down b) n = some l) : l.bytesAtNextInference = .ofNat 32 (target b n) := by
  induction n generalizing l with
  | zero =>
    cases hl
    rfl
  | succ n ih =>
    obtain ⟨l₀, o, hl₀, hiter, -⟩ := run_succ_eq_some hl
    rw [(Loop.of_iterate hiter).next, h.checkLoss (ih hl₀)]
    show _ + defaultBuild.stepBytes (BitVec.ofNat 32 (b n) - BitVec.ofNat 32 (b n)) = _
    rw [BitVec.sub_self, target, BitVec.ofNat_add]
    rfl

theorem Paced.isRun (h : Paced b) (n : ℕ) : IsRun ms (down b) n where
  ordered _ _ := ⟨le_rfl, le_rfl, le_rfl, le_rfl, le_rfl, le_rfl⟩
  grows k _ := by
    cases k with
    | zero => exact Nat.zero_le _
    | succ k => exact le_of_add_le_left (h.le (k + 1))
  ready k _ l hl := by
    rw [Loop.Ready, h.bytesAtNextInference hl, not_lt]
    exact (h.lag k).ge.trans' (Int.natCast_nonneg _)

end Paced

/-- Ten inferences a window, without a pause. -/
def steady (n : ℕ) : ℕ := 8000 + 160 * n

theorem paced_steady : Paced steady := by
  intro n
  cases n with
  | zero => exact .inl rfl
  | succ n => exact .inl rfl

/-- The second window of a steady run is one of ten inferences of the first class. -/
theorem softVote_steady :
    IsRun 200 (down steady) 11 ∧ Slow 200 (down steady) 11 ∧ SoftVote 200 (down steady) 11 ∧
      (outcome 200 (down steady) 10).bind Outcome.detect = some (0, 10) := by
  have hrun : IsRun 200 (down steady) 11 := paced_steady.isRun 11
  have hslow : Slow 200 (down steady) 11 := fun k _ => by
    show steady (k + 1) ≤ steady k + _
    have := interval_le 200
    simp only [steady]
    omega
  exact ⟨hrun, hslow, softVote 200 (down steady) 11 hrun hslow, by decide +kernel⟩

/-- Steady passes, but for two pauses: one that nearly lasts until the counter has gone half its
way, and another one when it is back at its value of the last opening. -/
def twoPauses (n : ℕ) : ℕ :=
  if n < 2 then 8000 + 160 * n
  else if n < 13421776 then 8000 + 2 ^ 31 + 160 * (n - 2)
  else 8000 + 2 ^ 31 + 2 ^ 32 + 160 * (n - 13421776)

theorem paced_twoPauses : Paced twoPauses := by
  have hclip : defaultBuild.clip = 8000 := rfl
  intro n
  cases n with
  | zero => exact .inl rfl
  | succ n =>
    simp only [target, twoPauses, hclip]
    split_ifs <;> omega

/-- The gate stays closed after the first pass. -/
theorem twoPauses_closed {n : ℕ} (hpos : 0 < n) (hn : n ≤ 16909321) :
    ¬ 1600 ≤ (BitVec.ofNat 32 (twoPauses n) - BitVec.ofNat 32 8000).toInt := by
  have hle : 8000 ≤ twoPauses n := by
    rw [twoPauses]
    split_ifs <;> omega
  -- the counter is in the other half of its range, or back at its value of the opening
  have hdist : (twoPauses n - 8000) % 2 ^ 32 < 1600 ∨ 2 ^ 31 ≤ (twoPauses n - 8000) % 2 ^ 32 := by
    rw [twoPauses]
    split_ifs with h₁ h₂
    · exact .inl (by omega)
    · rcases Nat.lt_or_ge n 13421775 with hlt | hge
      · rw [Nat.mod_eq_of_lt] <;> omega
      · obtain rfl : n = 13421775 := by omega
        exact .inl (by decide)
    · right
      rw [show 8000 + 2 ^ 31 + 2 ^ 32 + 160 * (n - 13421776) - 8000 =
        2 ^ 31 + 160 * (n - 13421776) + 2 ^ 32 by omega, Nat.add_mod_right, Nat.mod_eq_of_lt] <;>
        omega
  rw [BitVec.toInt_eq_toNat_cond, toNat_sub_of_le hle]
  split <;> omega

/-- All inferences but the first one are in one window. -/
theorem twoPauses_sum {n : ℕ} (hn : n < 16909321) :
    ∃ l, run 200 (down twoPauses) (n + 1) = some l ∧ l.lastPrintBw = .ofNat 32 8000 ∧
      ∀ v, l.voteScoreSum v = if v = 0 then 127 * n else 0 := by
  have hinterval : ((kwsPrintIntervalRingBytes 200).toNat : ℤ) = 1600 := rfl
  induction n with
  | zero =>
    have hfits : Loop.start.Fits (down twoPauses 0) := by
      intro _ v _
      rw [score_down]
      show -2 ^ 31 ≤ (0 : ℤ) + _ ∧ (0 : ℤ) + _ < 2 ^ 31
      split <;> omega
    obtain ⟨l', o, hiter, hspec⟩ := Loop.iterate_spec 200 hfits
    have hopen : Loop.start.printGateOpen 200 (down twoPauses 0).toReads = true := by decide
    obtain ⟨hlast', hsums', -⟩ := hspec.opened hopen
    refine ⟨l', ?_, hlast', fun v => ?_⟩
    · rw [run, run, Option.bind_eq_bind, Option.bind_some, hiter]
      rfl
    · rw [hsums']
      simp
  | succ n ih =>
    obtain ⟨l, hl, hlast, hsums⟩ := ih (by omega)
    have hfits : l.Fits (down twoPauses (n + 1)) := by
      intro _ v _
      rw [hsums, score_down]
      split <;> omega
    obtain ⟨l', o, hiter, hspec⟩ := Loop.iterate_spec 200 hfits
    have hclosed : ¬ l.printGateOpen 200 (down twoPauses (n + 1)).toReads = true := by
      rw [Loop.printGateOpen_iff, hlast, hinterval]
      exact twoPauses_closed (Nat.succ_pos n) (by omega)
    obtain ⟨hlast', hsums', -⟩ := hspec.closed hclosed
    refine ⟨l', ?_, hlast'.trans hlast, fun v => ?_⟩
    · rw [run, hl, Option.bind_eq_bind, Option.bind_some, hiter]
      rfl
    · rw [hsums']
      show l.voteScoreSum v + tally (down twoPauses (n + 1)) v = _
      rw [tally, if_pos (confident_down _ _), hsums, score_down]
      push_cast
      split <;> omega

/-- **The sum of a window overflows** although `bytes_written` always advances by less than `2 ^ 31`
from one gate check to the next. -/
theorem sums_overflow :
    ∃ (x : ℕ → Pass) (n : ℕ), IsRun 200 x n ∧
      (∀ k, k + 1 < n → (x (k + 1)).gate < (x k).gate + 2 ^ 31) ∧ ¬ SoftVote 200 x n := by
  refine ⟨down twoPauses, 16909322, paced_twoPauses.isRun _, fun k _ => ?_, fun h => ?_⟩
  · show twoPauses (k + 1) < twoPauses k + 2 ^ 31
    simp only [twoPauses]
    split_ifs <;> omega
  · -- the last pass would add to a sum of 127 * 16909320
    obtain ⟨l, hl, -, hsums⟩ := twoPauses_sum (by decide : 16909320 < 16909321)
    obtain ⟨o, ho⟩ := h.defined 16909321 (by decide)
    have hfits : l.Fits (down twoPauses 16909321) := by
      by_contra hno
      rw [outcome, hl, Option.bind_eq_bind, Option.bind_some, Loop.iterate_eq_none hno] at ho
      cases ho
    have hsum := (hfits (confident_down _ _) 0 (by decide)).2
    rw [hsums, score_down] at hsum
    exact absurd hsum (by decide)

end KwsSoc.Firmware.Vote
