import Mathlib.Algebra.BigOperators.Group.List.Basic
import Mathlib.Data.List.Flatten
import Mathlib.Tactic

/-! # Waveforms

A signal that holds one level after the other, level `b` for `len b` samples (`wave`). Its samples
between the edges `edge len b` and `edge len (b + 1)` are level `b` (`wave_getElem?`), and each sample
is between two edges (`exists_level`). -/

namespace Waveform

variable {α : Type*} {len : ℕ → ℕ} {level : ℕ → α} {n b i : ℕ}

/-- The sample with which level `b` begins. -/
def edge (len : ℕ → ℕ) : ℕ → ℕ
  | 0 => 0
  | b + 1 => edge len b + len b

/-- The first `n` levels. -/
def wave (len : ℕ → ℕ) (level : ℕ → α) : ℕ → List α
  | 0 => []
  | n + 1 => wave len level n ++ List.replicate (len n) (level n)

theorem length_wave (len : ℕ → ℕ) (level : ℕ → α) (n : ℕ) :
    (wave len level n).length = edge len n := by
  induction n with
  | zero => rfl
  | succ n ih => rw [wave, List.length_append, ih, List.length_replicate, edge]

theorem edge_mono (len : ℕ → ℕ) {a b : ℕ} (h : a ≤ b) : edge len a ≤ edge len b := by
  induction h with
  | refl => exact le_rfl
  | step _ ih => exact ih.trans (Nat.le_add_right _ _)

/-- **The samples of a level.** -/
theorem wave_getElem? (hb : b < n) (hle : edge len b ≤ i) (hlt : i < edge len (b + 1)) :
    (wave len level n)[i]? = some (level b) := by
  induction n with
  | zero => exact absurd hb (Nat.not_lt_zero b)
  | succ n ih =>
    have hlen := length_wave len level n
    rw [wave]
    rcases Nat.lt_succ_iff_lt_or_eq.mp hb with hbn | rfl
    · have hin : i < edge len n := hlt.trans_le (edge_mono len hbn)
      rw [List.getElem?_append_left (hlen ▸ hin)]
      exact ih hbn
    · rw [List.getElem?_append_right (hlen ▸ hle), hlen]
      apply List.getElem?_replicate_of_lt
      rw [edge] at hlt
      omega

/-- **Each sample is in a level.** -/
theorem exists_level (hi : i < edge len n) : ∃ b < n, edge len b ≤ i ∧ i < edge len (b + 1) := by
  induction n with
  | zero => exact absurd hi (Nat.not_lt_zero i)
  | succ n ih =>
    rcases Nat.lt_or_ge i (edge len n) with hlt | hge
    · obtain ⟨b, hb, hspan⟩ := ih hlt
      exact ⟨b, Nat.lt_succ_of_lt hb, hspan⟩
    · exact ⟨n, Nat.lt_succ_self n, hge, hi⟩

end Waveform
