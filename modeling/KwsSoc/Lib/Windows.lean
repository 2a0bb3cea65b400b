import Mathlib.Tactic

/-! # Sliding windows over a stream

A convolution or a pool looks at windows of `k` items, `s` items apart. When `s ≤ k` a stream can be
windowed piece by piece, as long as the items from the next window's start on are kept:

* **`windows k s xs`** — the complete windows of `xs`.
* **`carry k s xs`** — what is kept of `xs`: the items from the start of the next window on.
* **`windows_append`**, **`carry_append`** — windowing `xs ++ ys` is windowing `xs`, and then `ys`
  behind what is kept of `xs`.
* **`Layer`** — an operator that maps a function over the windows, with the same two laws. -/

namespace Windows

variable {α β : Type*} {k s n : ℕ}

/-! ## Counting windows -/

/-- How many windows fit into `n` items. -/
def count (k s n : ℕ) : ℕ := if n < k then 0 else (n - k) / s + 1

theorem count_of_lt (h : n < k) : count k s n = 0 := if_pos h

theorem count_of_le (h : k ≤ n) : count k s n = (n - k) / s + 1 := if_neg (not_lt.mpr h)

/-- A window lies within the items. -/
theorem mul_add_le {t : ℕ} (ht : t < count k s n) : t * s + k ≤ n := by
  by_cases h : n < k
  · rw [count_of_lt h] at ht
    exact absurd ht (Nat.not_lt_zero t)
  · have hkn : k ≤ n := not_lt.mp h
    rw [count_of_le hkn] at ht
    have hle := Nat.mul_le_mul_right s (Nat.le_of_lt_succ ht)
    have hdiv := Nat.div_mul_le_self (n - k) s
    omega

/-- The next window starts within the items, or at their end. -/
theorem count_mul_le (hsk : s ≤ k) : count k s n * s ≤ n := by
  by_cases h : n < k
  · rw [count_of_lt h, Nat.zero_mul]
    exact Nat.zero_le n
  · have hkn : k ≤ n := not_lt.mp h
    have hdiv := Nat.div_mul_le_self (n - k) s
    rw [count_of_le hkn, Nat.add_mul, Nat.one_mul]
    omega

/-- Windows of `n + m` items: those of the first `n`, and those that start later. -/
theorem count_add (hs : 0 < s) (hsk : s ≤ k) (n m : ℕ) :
    count k s (n + m) = count k s n + count k s (n - count k s n * s + m) := by
  by_cases h : n < k
  · rw [count_of_lt h, Nat.zero_mul, Nat.sub_zero, Nat.zero_add]
  · have hkn : k ≤ n := not_lt.mp h
    obtain ⟨q, r, hq, hr⟩ : ∃ q r, n - k = q * s + r ∧ r < s :=
      ⟨(n - k) / s, (n - k) % s, (Nat.div_add_mod' _ _).symm, Nat.mod_lt _ hs⟩
    have hdiv : ∀ x, (q * s + x) / s = q + x / s := by
      intro x
      rw [Nat.add_comm, Nat.add_mul_div_right _ _ hs, Nat.add_comm]
    have hcount : count k s n = q + 1 := by
      rw [count_of_le hkn, hq, hdiv, Nat.div_eq_of_lt hr, Nat.add_zero]
    have hnext : n - (q + 1) * s = k - s + r := by
      rw [Nat.add_mul, Nat.one_mul]
      omega
    rw [hcount, hnext, count_of_le (Nat.le_add_right_of_le hkn)]
    have hsum : n + m - k = q * s + (r + m) := by omega
    rw [hsum, hdiv]
    by_cases hm : r + m < s
    · -- nothing new is complete
      rw [Nat.div_eq_of_lt hm, count_of_lt (by omega)]
    · obtain ⟨d, hd⟩ := Nat.exists_eq_add_of_le (not_lt.mp hm)
      have hlast : k - s + r + m - k = d := by omega
      rw [count_of_le (by omega), hlast, hd, Nat.add_div_left _ hs]
      omega

/-! ## Windows and what is kept -/

/-- The complete windows of `xs`: width `k`, `s` apart. -/
def windows (k s : ℕ) (xs : List α) : List (List α) :=
  (List.range (count k s xs.length)).map fun t => (xs.drop (t * s)).take k

/-- The items of `xs` from the start of the next window on. -/
def carry (k s : ℕ) (xs : List α) : List α := xs.drop (count k s xs.length * s)

@[simp] theorem length_windows (xs : List α) :
    (windows k s xs).length = count k s xs.length := by
  rw [windows, List.length_map, List.length_range]

theorem length_carry (xs : List α) :
    (carry k s xs).length = xs.length - count k s xs.length * s :=
  List.length_drop

/-- **Windowing in pieces.** -/
theorem windows_append (hs : 0 < s) (hsk : s ≤ k) (xs ys : List α) :
    windows k s (xs ++ ys) = windows k s xs ++ windows k s (carry k s xs ++ ys) := by
  have hkeep : ∀ t, (xs ++ ys).drop ((count k s xs.length + t) * s) =
      (carry k s xs ++ ys).drop (t * s) := by
    intro t
    rw [Nat.add_mul, ← List.drop_drop, List.drop_append_of_le_length (count_mul_le hsk), carry]
  unfold windows
  rw [List.length_append, List.length_append, length_carry, count_add hs hsk, List.range_add,
    List.map_append, List.map_map]
  congr 1
  · apply List.map_congr_left
    intro t ht
    have hfit := mul_add_le (List.mem_range.mp ht)
    rw [List.drop_append_of_le_length (by omega), List.take_append_of_le_length]
    rw [List.length_drop]
    omega
  · apply List.map_congr_left
    intro t _
    rw [Function.comp_apply, hkeep]

/-- What is kept, in pieces. -/
theorem carry_append (hs : 0 < s) (hsk : s ≤ k) (xs ys : List α) :
    carry k s (xs ++ ys) = carry k s (carry k s xs ++ ys) := by
  unfold carry
  rw [List.length_append, List.length_append, List.length_drop, count_add hs hsk, Nat.add_mul,
    ← List.drop_drop, List.drop_append_of_le_length (count_mul_le hsk)]

/-! ## Layers -/

/-- A windowed operator: kernel width, stride, and what it computes from a window. -/
structure Layer (α β : Type*) where
  kernel : ℕ
  stride : ℕ
  stride_pos : 0 < stride
  stride_le : stride ≤ kernel
  out : List α → β

namespace Layer

variable (l : Layer α β) (xs ys : List α)

/-- The operator, applied to all complete windows. -/
def apply : List β := (windows l.kernel l.stride xs).map l.out

/-- What the operator keeps. -/
def rest : List α := carry l.kernel l.stride xs

@[simp] theorem length_apply : (l.apply xs).length = count l.kernel l.stride xs.length := by
  rw [apply, List.length_map, length_windows]

theorem length_rest :
    (l.rest xs).length = xs.length - count l.kernel l.stride xs.length * l.stride :=
  length_carry xs

variable {xs} in
theorem rest_of_lt (h : xs.length < l.kernel) : l.rest xs = xs := by
  unfold rest carry
  rw [count_of_lt h, Nat.zero_mul, List.drop_zero]

/-- **Applying a layer in pieces.** -/
theorem apply_append : l.apply (xs ++ ys) = l.apply xs ++ l.apply (l.rest xs ++ ys) := by
  unfold apply rest
  rw [windows_append l.stride_pos l.stride_le, List.map_append]

theorem rest_append : l.rest (xs ++ ys) = l.rest (l.rest xs ++ ys) :=
  carry_append l.stride_pos l.stride_le xs ys

/-- Applying a layer in pieces, behind something kept from before. -/
theorem apply_kept (kept : List α) :
    l.apply (kept ++ (xs ++ ys)) = l.apply (kept ++ xs) ++ l.apply (l.rest (kept ++ xs) ++ ys) := by
  rw [← List.append_assoc, apply_append]

theorem rest_kept (kept : List α) :
    l.rest (kept ++ (xs ++ ys)) = l.rest (l.rest (kept ++ xs) ++ ys) := by
  rw [← List.append_assoc, rest_append]

end Layer

end Windows
