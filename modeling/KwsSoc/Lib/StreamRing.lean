import Mathlib.Tactic

/-! # Ring buffers over a stream

A ring of `N` slots that a stream is written into, item `i` in slot `i % N`, holds the last `N`
items of what has been written (`Holds`). `Holds.push` is the step of the writer, and
`Holds.overwritten` says what a slot that has been reused holds. -/

namespace StreamRing

variable {α : Type*} {N : ℕ} {ring stream : ℕ → α} {count : ℕ}

/-- The ring holds the last `N` of the first `count` items of the stream. -/
def Holds (N : ℕ) (ring stream : ℕ → α) (count : ℕ) : Prop :=
  ∀ i < count, count ≤ i + N → ring (i % N) = stream i

theorem holds_zero (N : ℕ) (ring stream : ℕ → α) : Holds N ring stream 0 := by
  intro i hi
  exact absurd hi (Nat.not_lt_zero i)

/-- Two items less than `N` apart have different slots. -/
theorem slot_ne {i j : ℕ} (h : i < j) (hN : j < i + N) : i % N ≠ j % N := by
  intro he
  have hd : N ∣ j - i := (Nat.modEq_iff_dvd' h.le).mp he
  have := Nat.le_of_dvd (by omega) hd
  omega

/-- **Writing the next item** into its slot. -/
theorem Holds.push (h : Holds N ring stream count) :
    Holds N (Function.update ring (count % N) (stream count)) stream (count + 1) := by
  intro i hi hN
  by_cases hic : i = count
  · rw [hic, Function.update_self]
  · rw [Function.update_of_ne (slot_ne (by omega) (by omega))]
    exact h i (by omega) (by omega)

/-- A slot that has been reused holds the newest item written into it. -/
theorem Holds.overwritten (h : Holds N ring stream count) {i k : ℕ} (hlt : i + k * N < count)
    (hlast : count ≤ i + k * N + N) : ring (i % N) = stream (i + k * N) := by
  rw [← h (i + k * N) hlt hlast, Nat.add_mul_mod_self_right]

/-- What has not been written yet does not matter. -/
theorem Holds.congr (h : Holds N ring stream count) {stream' : ℕ → α}
    (hs : ∀ i < count, stream i = stream' i) : Holds N ring stream' count := by
  intro i hi hN
  rw [h i hi hN, hs i hi]

/-- The slots are all that matters of the ring. -/
theorem Holds.congr_ring (h : Holds N ring stream count) {ring' : ℕ → α}
    (hr : ∀ i, ring (i % N) = ring' (i % N)) : Holds N ring' stream count := by
  intro i hi hN
  rw [← hr i, h i hi hN]

/-- `a` numbers in a row have all remainders. -/
theorem range'_map_mod (n a : ℕ) : ((List.range' n a).map (· % a)).Perm (List.range a) := by
  have h := Nat.multiset_Ico_map_mod n a
  have hIco : Multiset.Ico n (n + a) = (List.range' n a : Multiset ℕ) := by
    show ((List.range' n (n + a - n) : List ℕ) : Multiset ℕ) = _
    rw [Nat.add_sub_cancel_left]
  rw [hIco, Multiset.map_coe] at h
  exact Multiset.coe_eq_coe.mp h

/-- Reading consecutive positions of a list. -/
theorem map_getD_range' {xs : List α} {off n : ℕ} (z : α) (h : off + n ≤ xs.length) :
    (List.range' off n).map (fun i => xs.getD i z) = (xs.drop off).take n := by
  apply List.ext_getElem
  · rw [List.length_map, List.length_range', List.length_take, List.length_drop]
    omega
  · intro i h1 h2
    rw [List.length_map, List.length_range'] at h1
    rw [List.getElem_map, List.getElem_range', List.getElem_take, List.getElem_drop,
      List.getD_eq_getElem?_getD, Nat.one_mul, List.getElem?_eq_getElem (by omega),
      Option.getD_some]

/-- **The slots in use** hold the last items written, each once. -/
theorem Holds.perm (h : Holds N ring stream count) :
    ((List.range (min N count)).map ring).Perm
      ((List.range' (count - N) (min N count)).map stream) := by
  rcases Nat.le_total count N with hle | hle
  · -- nothing has been overwritten: item `i` is in slot `i`
    rw [Nat.min_eq_right hle, Nat.sub_eq_zero_of_le hle, ← List.range_eq_range']
    apply List.Perm.of_eq
    apply List.map_congr_left
    intro i hi
    have hlt := List.mem_range.mp hi
    rw [← h i hlt (by omega), Nat.mod_eq_of_lt (by omega)]
  · rw [Nat.min_eq_left hle]
    have hmap : (List.range' (count - N) N).map stream =
        ((List.range' (count - N) N).map (· % N)).map ring := by
      rw [List.map_map]
      apply List.map_congr_left
      intro i hi
      rw [List.mem_range'_1] at hi
      exact (h i (by omega) (by omega)).symm
    rw [hmap]
    exact ((range'_map_mod _ N).map ring).symm

end StreamRing
