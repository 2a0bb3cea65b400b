import Mathlib.Data.Nat.Digits.Lemmas

/-! # Numerals

Numerals are written with the most significant digit first (`numeral`). A routine that goes through
the places of a number from the highest one down finds its digits with zeros in front (`places`,
**`places_eq`**), and drops these (**`dropWhile_places`**). -/

namespace Numeral

variable {b : ℕ}

/-- The digits of `v`, the most significant one first; none for zero. -/
def numeral (b v : ℕ) : List ℕ := (Nat.digits b v).reverse

/-- The digits in the `k` lowest places. -/
def places (b : ℕ) : ℕ → ℕ → List ℕ
  | 0, _ => []
  | k + 1, v => v / b ^ k % b :: places b k v

theorem leftpad_zero {α : Type*} (a : α) (l : List α) : l.leftpad 0 a = l := by
  rw [List.leftpad, Nat.zero_sub, List.replicate_zero, List.nil_append]

theorem leftpad_one_cons {α : Type*} (a d : α) (l : List α) : (d :: l).leftpad 1 a = d :: l := by
  rw [List.leftpad, List.length_cons, Nat.sub_eq_zero_of_le (by omega), List.replicate_zero,
    List.nil_append]

theorem leftpad_leftpad {α : Type*} (l : List α) (m n : ℕ) (a : α) :
    (l.leftpad m a).leftpad n a = l.leftpad (max m n) a := by
  rw [List.leftpad, List.leftpad, List.leftpad, ← List.append_assoc,
    List.replicate_append_replicate, List.length_append, List.length_replicate]
  congr 2
  omega

/-- The lowest places do not see the higher ones. -/
theorem places_mod {j k : ℕ} (hjk : j ≤ k) (v : ℕ) : places b j (v % b ^ k) = places b j v := by
  induction j with
  | zero => rfl
  | succ j ih =>
    have hdvd : b ^ j * b ∣ b ^ k := by
      rw [← pow_succ]
      exact pow_dvd_pow b hjk
    rw [places, places, ih (Nat.le_of_succ_le hjk), ← Nat.mod_mul_right_div_self,
      Nat.mod_mod_of_dvd v hdvd, Nat.mod_mul_right_div_self]

theorem length_numeral_le {k v : ℕ} (hb : 1 < b) (hv : v < b ^ k) : (numeral b v).length ≤ k := by
  rw [numeral, List.length_reverse]
  exact (Nat.digits_length_le_iff hb v).mpr hv

/-- A digit in front of the places below it. -/
theorem numeral_of_pow_le {k v : ℕ} (hb : 1 < b) (hle : b ^ k ≤ v) (hlt : v < b ^ (k + 1)) :
    numeral b v = v / b ^ k :: (numeral b (v % b ^ k)).leftpad k 0 := by
  have hpos : 0 < b ^ k := Nat.pow_pos (by omega)
  have hq : 0 < v / b ^ k := Nat.div_pos hle hpos
  have hqb : v / b ^ k < b := Nat.div_lt_of_lt_mul (by rwa [← pow_succ])
  have hlen := length_numeral_le hb (Nat.mod_lt v hpos)
  rw [numeral, List.length_reverse] at hlen
  have happend := Nat.digits_append_zeroes_append_digits
    (k := k - (Nat.digits b (v % b ^ k)).length) (n := v % b ^ k) hb hq
  rw [Nat.add_sub_cancel' hlen, Nat.mod_add_div, Nat.digits_of_lt b _ hq.ne' hqb] at happend
  rw [numeral, ← happend, List.reverse_append, List.reverse_append, List.reverse_replicate,
    List.leftpad, numeral, List.length_reverse]
  rfl

/-- **The digits of a number, with zeros in front.** -/
theorem places_eq {k v : ℕ} (hb : 1 < b) (hv : v < b ^ k) :
    places b k v = (numeral b v).leftpad k 0 := by
  induction k generalizing v with
  | zero =>
    obtain rfl : v = 0 := by simpa using hv
    rw [numeral, Nat.digits_zero]
    rfl
  | succ k ih =>
    have hpos : 0 < b ^ k := Nat.pow_pos (by omega)
    rcases Nat.lt_or_ge v (b ^ k) with hlt | hge
    · -- a zero in front
      have hlen := length_numeral_le hb hlt
      rw [places, Nat.div_eq_of_lt hlt, Nat.zero_mod, ih hlt, List.leftpad, List.leftpad,
        Nat.succ_sub hlen, List.replicate_succ, List.cons_append]
    · have hqb : v / b ^ k < b := Nat.div_lt_of_lt_mul (by rwa [← pow_succ])
      have hnum := numeral_of_pow_le hb hge hv
      have hlen : (numeral b v).length = k + 1 := by
        rw [hnum, List.length_cons, List.length_leftpad,
          max_eq_left (length_numeral_le hb (Nat.mod_lt v hpos))]
      rw [places, Nat.mod_eq_of_lt hqb, ← places_mod le_rfl v, ih (Nat.mod_lt v hpos), ← hnum,
        List.leftpad, hlen, Nat.sub_self, List.replicate_zero, List.nil_append]

theorem head?_numeral_ne_zero (b v : ℕ) : ∀ d ∈ (numeral b v).head?, d ≠ 0 := by
  intro d hd
  rw [numeral, List.head?_reverse] at hd
  obtain ⟨hne, hlast⟩ := List.mem_getLast?_eq_getLast hd
  rw [hlast]
  refine Nat.getLast_digit_ne_zero b fun hv => hne ?_
  rw [hv, Nat.digits_zero]

/-- **Without the zeros in front.** -/
theorem dropWhile_places {k v : ℕ} (hb : 1 < b) (hv : v < b ^ k) :
    (places b k v).dropWhile (· = 0) = numeral b v := by
  rw [places_eq hb hv, List.leftpad, List.dropWhile_append_of_pos]
  · cases hnum : numeral b v with
    | nil => rfl
    | cons d ds =>
      have hd : d ≠ 0 := head?_numeral_ne_zero b v d (by rw [hnum]; rfl)
      exact List.dropWhile_cons_of_neg (by simpa using hd)
  · intro d hd
    simpa using List.eq_of_mem_replicate hd

end Numeral
