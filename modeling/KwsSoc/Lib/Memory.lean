import Mathlib.Tactic

/-! # Byte-addressed memory with little-endian words

The memory of a 32-bit machine as a function from addresses to bytes, with words of four bytes:

* **`Mem.word`**, **`Mem.setWord`** — read and write a word; `word_setWord_same` and
  `word_setWord_of_disjoint` say what a read sees after a write.
* **`Mem.update`** — write a run of bytes one by one, each value computed from the memory so far;
  `update_eqOn` is its frame, `update_apply` and `copy_apply` say what it leaves behind.

Frames are stated with `Set.EqOn` on intervals of addresses. -/

namespace ByteMemory

/-- The bytes of the memory. -/
abbrev Mem := ℕ → BitVec 8

namespace Mem

/-- Write the byte at `a`. -/
def set (m : Mem) (a : ℕ) (v : BitVec 8) : Mem := Function.update m a v

/-- The word at `a`. -/
def word (m : Mem) (a : ℕ) : ℕ :=
  (m a).toNat + 2 ^ 8 * (m (a + 1)).toNat + 2 ^ 16 * (m (a + 2)).toNat + 2 ^ 24 * (m (a + 3)).toNat

/-- Write the word at `a`, low byte first. -/
def setWord (m : Mem) (a v : ℕ) : Mem :=
  (((m.set a (BitVec.ofNat 8 v)).set (a + 1) (BitVec.ofNat 8 (v / 2 ^ 8))).set (a + 2)
    (BitVec.ofNat 8 (v / 2 ^ 16))).set (a + 3) (BitVec.ofNat 8 (v / 2 ^ 24))

/-- Write the bytes from `p` on, `n` of them, lowest first; byte `i` is `f` of the memory as it is
then. -/
def update (m : Mem) (p : ℕ) (f : Mem → ℕ → BitVec 8) : ℕ → Mem
  | 0 => m
  | n + 1 => (update m p f n).set (p + n) (f (update m p f n) n)

variable (m : Mem) (a v : ℕ)

@[simp] theorem set_same (b : BitVec 8) : m.set a b a = b := by
  rw [set, Function.update_self]

@[simp] theorem set_of_ne (b : BitVec 8) {x : ℕ} (h : x ≠ a) : m.set a b x = m x := by
  rw [set, Function.update_of_ne h]

theorem set_eqOn (b : BitVec 8) : Set.EqOn (m.set a b) m {a}ᶜ := fun _ hx => m.set_of_ne a b hx

theorem word_lt : m.word a < 2 ^ 32 := by
  have h0 := (m a).isLt
  have h1 := (m (a + 1)).isLt
  have h2 := (m (a + 2)).isLt
  have h3 := (m (a + 3)).isLt
  unfold word
  omega

/-- A word depends on its four bytes. -/
theorem word_congr {m m' : Mem} {a : ℕ} (h : Set.EqOn m m' (Set.Ico a (a + 4))) :
    m.word a = m'.word a := by
  have hx (k : ℕ) (hk : k < 4) : m (a + k) = m' (a + k) := h ⟨by omega, by omega⟩
  have h0 := hx 0 (by omega)
  rw [Nat.add_zero] at h0
  simp only [word, h0, hx 1 (by omega), hx 2 (by omega), hx 3 (by omega)]

/-- A word write stays within its four bytes. -/
theorem setWord_eqOn : Set.EqOn (m.setWord a v) m (Set.Ico a (a + 4))ᶜ := by
  intro x hx
  have hne (k : ℕ) (hk : k < 4) : x ≠ a + k := by
    rintro rfl
    exact hx ⟨by omega, by omega⟩
  have h0 : x ≠ a := by simpa using hne 0 (by omega)
  rw [setWord, set_of_ne _ _ _ (hne 3 (by omega)), set_of_ne _ _ _ (hne 2 (by omega)),
    set_of_ne _ _ _ (hne 1 (by omega)), set_of_ne _ _ _ h0]

/-- **A read sees the last write** of the same word. -/
theorem word_setWord_same {v : ℕ} (hv : v < 2 ^ 32) : (m.setWord a v).word a = v := by
  have h0 : (m.setWord a v) a = BitVec.ofNat 8 v := by simp [setWord]
  have h1 : (m.setWord a v) (a + 1) = BitVec.ofNat 8 (v / 2 ^ 8) := by simp [setWord]
  have h2 : (m.setWord a v) (a + 2) = BitVec.ofNat 8 (v / 2 ^ 16) := by simp [setWord]
  have h3 : (m.setWord a v) (a + 3) = BitVec.ofNat 8 (v / 2 ^ 24) := by simp [setWord]
  rw [word, h0, h1, h2, h3]
  simp only [BitVec.toNat_ofNat]
  omega

/-- **A read does not see a write elsewhere.** -/
theorem word_setWord_of_disjoint {a b : ℕ} (v : ℕ) (h : b + 4 ≤ a ∨ a + 4 ≤ b) :
    (m.setWord a v).word b = m.word b := by
  refine word_congr fun x hx => m.setWord_eqOn a v ?_
  simp only [Set.mem_compl_iff, Set.mem_Ico] at hx ⊢
  omega

/-- A run of byte writes stays within its range. -/
theorem update_eqOn (p : ℕ) (f : Mem → ℕ → BitVec 8) (n : ℕ) :
    Set.EqOn (m.update p f n) m (Set.Ico p (p + n))ᶜ := by
  induction n with
  | zero => exact fun _ _ => rfl
  | succ n ih =>
    intro x hx
    simp only [Set.mem_compl_iff, Set.mem_Ico] at hx
    rw [update, set_of_ne _ _ _ (by omega)]
    refine ih ?_
    simp only [Set.mem_compl_iff, Set.mem_Ico]
    omega

/-- A run of byte writes stays within a range that starts where it does. -/
theorem update_eqOn_of_le (p : ℕ) (f : Mem → ℕ → BitVec 8) {n k : ℕ} (hle : n ≤ k) :
    Set.EqOn (m.update p f n) m (Set.Ico p (p + k))ᶜ := by
  have hsub : Set.Ico p (p + n) ⊆ Set.Ico p (p + k) :=
    Set.Ico_subset_Ico_right (Nat.add_le_add_left hle p)
  exact (m.update_eqOn p f n).mono (Set.compl_subset_compl.mpr hsub)

/-- A byte of a run is what was computed for it. -/
theorem update_apply (p : ℕ) (f : Mem → ℕ → BitVec 8) {n i : ℕ} (hi : i < n) :
    m.update p f n (p + i) = f (m.update p f i) i := by
  induction n with
  | zero => omega
  | succ n ih =>
    rw [update]
    by_cases hin : i = n
    · rw [hin, set_same]
    · rw [set_of_ne _ _ _ (by omega)]
      exact ih (by omega)

/-- **A forward copy** to a run that does not meet its source: every byte arrives. -/
theorem copy_apply {p q n i : ℕ} (hdisj : q + n ≤ p ∨ p + n ≤ q) (hi : i < n) :
    m.update p (fun m j => m (q + j)) n (p + i) = m (q + i) := by
  rw [update_apply m p _ hi]
  -- the byte read has not been written yet
  refine m.update_eqOn p _ i ?_
  simp only [Set.mem_compl_iff, Set.mem_Ico]
  omega

end Mem

end ByteMemory
