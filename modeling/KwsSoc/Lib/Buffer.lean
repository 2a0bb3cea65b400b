import Mathlib.Tactic

/-! # Arrays of a declared size

A C array has a fixed number of items, and whatever reads or writes outside it is undefined
(`none`). `read_first`, `store_first` and `copy_first` say what the first items are after a read, a
write and a copy; a buffer that is filled from the front is known by them. -/

/-- An array of `n` items. -/
structure Buffer (α : Type*) (n : ℕ) where
  items : List α
  length_eq : items.length = n

namespace Buffer

variable {α β : Type*} {n m : ℕ}

/-- `memset`, for a whole array. -/
def fill (n : ℕ) (x : α) : Buffer α n := ⟨List.replicate n x, List.length_replicate⟩

/-- The first `c` items. -/
def first (b : Buffer α n) (c : ℕ) : List α := b.items.take c

/-- `c` items from `off` on. -/
def read (b : Buffer α n) (off c : ℕ) : Option (List α) :=
  if off + c ≤ n then some ((b.items.drop off).take c) else none

/-- The item at `i`. -/
def get (b : Buffer α n) (i : ℕ) : Option α := b.items[i]?

/-- Writes `xs` from `off` on. -/
def store (b : Buffer α n) (off : ℕ) (xs : List α) : Option (Buffer α n) :=
  if h : off + xs.length ≤ n then
    some ⟨b.items.take off ++ xs ++ b.items.drop (off + xs.length), by
      simp only [List.length_append, List.length_take, List.length_drop, b.length_eq]
      omega⟩
  else none

/-- `memcpy(dst + off, src + off', c)`. -/
def memcpy (dst : Buffer α n) (off : ℕ) (src : Buffer α m) (off' c : ℕ) : Option (Buffer α n) := do
  let xs ← src.read off' c
  dst.store off xs

variable (b : Buffer α n)

theorem length_first {c : ℕ} (h : c ≤ n) : (b.first c).length = c := by
  rw [first, List.length_take, b.length_eq, Nat.min_eq_left h]

/-- A whole array is its first `n` items. -/
theorem first_self : b.first n = b.items := List.take_of_length_le b.length_eq.le

theorem read_eq {off c : ℕ} (h : off + c ≤ n) : b.read off c = some ((b.items.drop off).take c) :=
  if_pos h

theorem read_first {c : ℕ} (h : c ≤ n) : b.read 0 c = some (b.first c) := by
  rw [b.read_eq (by omega), List.drop_zero, first]

/-- **Writing behind the first items.** -/
theorem store_first {off : ℕ} {xs : List α} (h : off + xs.length ≤ n) :
    ∃ b', b.store off xs = some b' ∧ b'.first (off + xs.length) = b.first off ++ xs ∧
      b'.items = b.first off ++ xs ++ b.items.drop (off + xs.length) := by
  refine ⟨_, dif_pos h, ?_, rfl⟩
  have hlen : (b.items.take off ++ xs).length = off + xs.length := by
    rw [List.length_append, ← first, b.length_first (by omega)]
  unfold first
  rw [List.take_append_of_le_length hlen.ge, List.take_of_length_le hlen.le]

/-- **A write in two pieces.** -/
theorem store_append (off : ℕ) (xs ys : List α) :
    b.store off (xs ++ ys) = (b.store off xs).bind fun b' => b'.store (off + xs.length) ys := by
  unfold store
  by_cases h : off + (xs ++ ys).length ≤ n
  · have hlen : off + xs.length + ys.length ≤ n := by
      rw [List.length_append] at h
      omega
    have htake : (b.items.take off ++ xs).length = off + xs.length := by
      rw [List.length_append, List.length_take, b.length_eq]
      omega
    rw [dif_pos h, dif_pos (by omega), Option.bind_some, dif_pos hlen]
    -- what the second piece writes over lies behind the first one
    have hrest : (b.items.take off ++ xs ++ b.items.drop (off + xs.length)).drop
        (off + xs.length + ys.length) = b.items.drop (off + (xs ++ ys).length) := by
      rw [← List.drop_drop, List.drop_left' htake, List.drop_drop, List.length_append,
        Nat.add_assoc]
    have hfirst : (b.items.take off ++ xs ++ b.items.drop (off + xs.length)).take
        (off + xs.length) = b.items.take off ++ xs := List.take_left' htake
    congr 2
    rw [hrest, hfirst, List.append_assoc (b.items.take off) xs ys]
  · rw [dif_neg h]
    rw [List.length_append] at h
    by_cases hx : off + xs.length ≤ n
    · rw [dif_pos hx, Option.bind_some, dif_neg (by omega)]
    · rw [dif_neg hx]
      rfl

/-- A copy that fits. -/
theorem memcpy_items (src : Buffer α m) {off off' c : ℕ} (h : off + c ≤ n) (hsrc : off' + c ≤ m) :
    ∃ b', b.memcpy off src off' c = some b' ∧
      b'.items = b.first off ++ (src.items.drop off').take c ++ b.items.drop (off + c) := by
  have hlen : ((src.items.drop off').take c).length = c := by
    rw [List.length_take, List.length_drop, src.length_eq]
    omega
  obtain ⟨b', hb', -, hitems⟩ := b.store_first
    (by omega : off + ((src.items.drop off').take c).length ≤ n)
  refine ⟨b', ?_, ?_⟩
  · rw [memcpy, src.read_eq hsrc]
    exact hb'
  · rw [hitems, hlen]

/-- **Copying behind the first items.** -/
theorem copy_first (src : Buffer α m) {off c : ℕ} (h : off + c ≤ n) (hsrc : c ≤ m) :
    ∃ b', b.memcpy off src 0 c = some b' ∧ b'.first (off + c) = b.first off ++ src.first c := by
  obtain ⟨b', hb', hitems⟩ := b.memcpy_items src h (by omega : 0 + c ≤ m)
  have hlen : (b.first off ++ src.first c).length = off + c := by
    rw [List.length_append, b.length_first (by omega), src.length_first hsrc]
  refine ⟨b', hb', ?_⟩
  rw [first, hitems, List.drop_zero, ← first, List.take_append_of_le_length hlen.ge,
    List.take_of_length_le hlen.le]

/-- **Two copies, one behind the other.** -/
theorem join_first {k : ℕ} (x : Buffer α m) (y : Buffer α k) {c d : ℕ} (h : c + d ≤ n) (hx : c ≤ m)
    (hy : d ≤ k) :
    ∃ b₁ b₂, b.memcpy 0 x 0 c = some b₁ ∧ b₁.memcpy c y 0 d = some b₂ ∧
      b₂.first (c + d) = x.first c ++ y.first d := by
  obtain ⟨b₁, h₁, hf₁⟩ := b.copy_first x (by omega : 0 + c ≤ n) hx
  obtain ⟨b₂, h₂, hf₂⟩ := b₁.copy_first y h hy
  refine ⟨b₁, b₂, h₁, h₂, ?_⟩
  rw [Nat.zero_add] at hf₁
  rw [hf₂, hf₁]
  rfl

end Buffer
