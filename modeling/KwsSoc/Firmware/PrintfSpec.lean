import KwsSoc.Firmware.Printf
import KwsSoc.Lib.Numeral
import Mathlib.Tactic.IntervalCases

/-! # What C prescribes for `printf`

Formats are lists of directives (`Directive`), in every spelling that C allows of the conversions
that the firmware has; `prescribed` is what C's `printf` sends for them. Texts and numbers come into
their fields as C prescribes (`sendField_of`, **`formatUnsignedU32_eq`**), as long as the count of
what has been sent is an `int`. -/

namespace KwsSoc.Firmware.Printf

open Numeral

/-! ## Formats -/

/-- A flag. -/
inductive Flag
  | minus
  | zero
  deriving DecidableEq

/-- A conversion specifier. -/
inductive Specifier
  | d | i | u | x | X | p | c | s
  deriving DecidableEq

/-- An integer conversion. -/
def Specifier.isInteger : Specifier → Bool
  | .d | .i | .u | .x | .X => true
  | .p | .c | .s => false

/-- The number that decimal digits stand for. -/
def decimal (digits : List (Fin 10)) : ℕ := digits.foldl (fun v d => 10 * v + d.val) 0

/-- A conversion specification, with flags and precision where C defines them. -/
structure Specification where
  flags : List Flag
  width : List (Fin 10)
  precision : Option (List (Fin 10))
  long : Bool
  specifier : Specifier
  width_head : ∀ d ∈ width.head?, d ≠ 0
  width_lt : decimal width < 2 ^ 31
  precision_lt : ∀ ds ∈ precision, decimal ds < 2 ^ 31
  zero_integer : .zero ∈ flags → specifier.isInteger = true
  precision_integer : precision.isSome → specifier.isInteger = true ∨ specifier = .s
  long_integer : long = true → specifier.isInteger = true

/-- A directive. -/
inductive Directive
  | char (c : Byte) (ordinary : c ≠ ascii '%' ∧ c ≠ 0)
  | percent
  | convert (spec : Specification)

/-- How a flag is written. -/
def Flag.byte : Flag → Byte
  | .minus => ascii '-'
  | .zero => ascii '0'

/-- How a specifier is written. -/
def Specifier.byte : Specifier → Byte
  | .d => ascii 'd'
  | .i => ascii 'i'
  | .u => ascii 'u'
  | .x => ascii 'x'
  | .X => ascii 'X'
  | .p => ascii 'p'
  | .c => ascii 'c'
  | .s => ascii 's'

/-- How decimal digits are written. -/
def digitBytes (digits : List (Fin 10)) : List Byte := digits.map fun d => ascii '0' + .ofNat 8 d

/-- How a precision is written. -/
def precisionBytes (precision : Option (List (Fin 10))) : List Byte :=
  precision.elim [] fun digits => ascii '.' :: digitBytes digits

/-- How length and specifier are written. -/
def Specification.ending (c : Specification) : List Byte :=
  (if c.long then [ascii 'l'] else []) ++ [c.specifier.byte]

/-- How a conversion specification is written, behind its `%`. -/
def Specification.fmt (c : Specification) : List Byte :=
  c.flags.map Flag.byte ++ (digitBytes c.width ++ (precisionBytes c.precision ++ c.ending))

/-- How a directive is written. -/
def Directive.fmt : Directive → List Byte
  | .char c _ => [c]
  | .percent => text "%%"
  | .convert c => ascii '%' :: c.fmt

/-! ## What is sent -/

/-- A text in its field. -/
def field (minus : Bool) (width : ℕ) (bytes : List Byte) : List Byte :=
  if minus then bytes.rightpad width (ascii ' ') else bytes.leftpad width (ascii ' ')

/-- The digits of a number: at least as many as the precision says, which is 1 if there is none. -/
def digits (base : ℕ) (uppercase : Bool) (precision : Option ℕ) (v : ℕ) : List Byte :=
  ((numeral base v).map fun d => (hexDigits uppercase).getD d 0).leftpad (precision.getD 1)
    (ascii '0')

/-- A number behind its sign or prefix: zeros fill the field only without a precision, and on the
left. -/
def number (minus zero : Bool) (width : ℕ) (precision : Option ℕ) (pre ds : List Byte) :
    List Byte :=
  if zero ∧ ¬ minus ∧ precision = none then pre ++ ds.leftpad (width - pre.length) (ascii '0')
  else field minus width (pre ++ ds)

/-- The bytes of a string. The array ends with a terminator, or is not shorter than the
precision. -/
def stringBytes (precision : Option ℕ) (s : List Byte) : Option (List Byte) :=
  let chars := s.takeWhile (· ≠ 0)
  if 0 ∈ s ∨ ∃ p ∈ precision, p ≤ s.length then some (precision.elim chars chars.take) else none

namespace Specification

variable (c : Specification)

/-- The field is filled on the right. -/
def minus : Bool := .minus ∈ c.flags

/-- The field is filled with zeros. -/
def zero : Bool := .zero ∈ c.flags

/-- The precision, as a number. -/
def prec : Option ℕ := c.precision.map decimal

/-- An integer in its field. -/
def integer (base : ℕ) (uppercase : Bool) (sign : List Byte) (v : ℕ) : List Byte :=
  number c.minus c.zero (decimal c.width) c.prec sign (digits base uppercase c.prec v)

/-- What is sent for an argument. -/
def prescribed : Arg → Option (List Byte)
  | .word v =>
    match c.specifier with
    | .d | .i => some (c.integer 10 false (if v.toInt < 0 then text "-" else []) v.toInt.natAbs)
    | .u => some (c.integer 10 false [] v.toNat)
    | .x => some (c.integer 16 false [] v.toNat)
    | .X => some (c.integer 16 true [] v.toNat)
    | .p => some (field c.minus (decimal c.width) (text "0x" ++ digits 16 false none v.toNat))
    | .c => some (field c.minus (decimal c.width) [v.setWidth 8])
    | .s => none
  | .str s =>
    if c.specifier = .s then
      (stringBytes c.prec (s.elim (text "(null)" ++ [0]) CArray.bytes)).map
        (field c.minus (decimal c.width))
    else none

end Specification

/-- **What C's `printf` sends.** -/
def prescribed : List Directive → List Arg → Option (List Byte)
  | [], _ => some []
  | .char c _ :: ds, args => (prescribed ds args).map (c :: ·)
  | .percent :: ds, args => (prescribed ds args).map (ascii '%' :: ·)
  | .convert _ :: _, [] => none
  | .convert c :: ds, arg :: args => do
    let bytes ← c.prescribed arg
    let rest ← prescribed ds args
    return bytes ++ rest

/-- All strings that are converted are terminated. -/
def Terminated : List Directive → List Arg → Prop
  | .convert _ :: ds, arg :: args =>
    (∀ s, arg = .str (some s) → 0 ∈ s.bytes) ∧ Terminated ds args
  | .char _ _ :: ds, args | .percent :: ds, args => Terminated ds args
  | _, _ => True

/-! ## The count -/

/-- What has been sent, counted. -/
def Out.of (bytes : List Byte) : Out := ⟨bytes, bytes.length⟩

theorem addInt_eq {a b : ℤ} (ha : 0 ≤ a) (hb : 0 ≤ b) (h : a + b < 2 ^ 31) :
    addInt a b = some (a + b) := if_pos ⟨by omega, h⟩

theorem Out.puts_of {xs ys : List Byte} (h : (xs ++ ys).length < 2 ^ 31) :
    (Out.of xs).puts ys = some (.of (xs ++ ys)) := by
  rw [List.length_append] at h
  rw [puts, of, addInt_eq (Int.natCast_nonneg _) (Int.natCast_nonneg _) (by omega),
    Option.bind_eq_bind, Option.bind_some, of, List.length_append, Nat.cast_add]
  rfl

theorem Out.uartPutnch_of {xs : List Byte} {ch : Byte} {count : ℤ} {n : ℕ} (hn : count.toNat = n)
    (h : (xs ++ List.replicate n ch).length < 2 ^ 31) :
    (Out.of xs).uartPutnch ch count = some (.of (xs ++ List.replicate n ch)) := by
  rw [uartPutnch, hn, puts_of h]

theorem Out.append_of {xs ys : List Byte} (h : (xs ++ ys).length < 2 ^ 31) :
    (Out.of xs).append (.of ys) = some (.of (xs ++ ys)) := by
  rw [List.length_append] at h
  rw [append, of, of, addInt_eq (Int.natCast_nonneg _) (Int.natCast_nonneg _) (by omega),
    Option.bind_eq_bind, Option.bind_some, of, List.length_append, Nat.cast_add]
  rfl

/-! ## Fields -/

theorem field_true (width : ℕ) (bytes : List Byte) :
    field true width bytes = bytes ++ List.replicate (width - bytes.length) (ascii ' ') := rfl

theorem field_false (width : ℕ) (bytes : List Byte) :
    field false width bytes = List.replicate (width - bytes.length) (ascii ' ') ++ bytes := rfl

theorem toNat_spaces (width len : ℕ) :
    (if (width : ℤ) > len then (width : ℤ) - len else 0).toNat = width - len := by
  split <;> omega

/-- **A text is sent in its field**, if `body` sends the text. -/
theorem Out.padded_of (xs : List Byte) {bytes : List Byte} {width : ℕ} {minus : Bool} {spaces : ℤ}
    {body : Out → Option Out} (hspaces : spaces.toNat = width - bytes.length)
    (hbody : ∀ ys : List Byte, (ys ++ bytes).length < 2 ^ 31 →
      body (.of ys) = some (.of (ys ++ bytes)))
    (h : (xs ++ field minus width bytes).length < 2 ^ 31) :
    (Out.of xs).padded minus spaces body = some (.of (xs ++ field minus width bytes)) := by
  cases minus with
  | true =>
    rw [field_true, ← List.append_assoc] at h ⊢
    have hbytes : (xs ++ bytes).length < 2 ^ 31 := by
      rw [List.length_append] at h
      omega
    rw [padded, if_pos rfl, Option.bind_eq_bind, Option.bind_some]
    show (body (of xs)).bind _ = _
    rw [hbody xs hbytes, Option.bind_some, if_pos rfl, uartPutnch_of hspaces h]
  | false =>
    rw [field_false, ← List.append_assoc] at h ⊢
    have hspace : (xs ++ List.replicate (width - bytes.length) (ascii ' ')).length < 2 ^ 31 := by
      rw [List.length_append] at h
      omega
    rw [padded, if_neg Bool.false_ne_true, uartPutnch_of hspaces hspace, Option.bind_eq_bind,
      Option.bind_some]
    show (body (of _)).bind _ = _
    rw [hbody _ h, Option.bind_some, if_neg Bool.false_ne_true]

theorem sendField_of {xs bytes : List Byte} {width : ℕ} {minus : Bool}
    (h : (xs ++ field minus width bytes).length < 2 ^ 31) :
    sendField (.of xs) bytes width minus = some (.of (xs ++ field minus width bytes)) :=
  Out.padded_of xs (toNat_spaces width bytes.length) (fun _ => Out.puts_of) h

theorem zeroes_eq (numLen prefixLen width : ℕ) (precision : Option ℕ) (minus zero : Bool) :
    zeroes numLen prefixLen width (precision.elim (-1) (↑)) minus zero =
      ((if zero ∧ ¬ minus ∧ precision = none then width - prefixLen
        else precision.getD 0) - numLen : ℕ) := by
  rw [zeroes]
  cases precision with
  | none =>
    rw [Option.elim_none, if_neg (by omega), Option.getD_none]
    by_cases hz : zero = true ∧ ¬ minus = true
    · rw [if_pos (c := zero = true ∧ _) ⟨hz.1, hz.2, rfl⟩]
      split_ifs with h
      · omega
      · have hw : ¬ (width : ℤ) > prefixLen + numLen := fun hw => h ⟨by omega, hz.1, hz.2, hw⟩
        omega
    · rw [if_neg fun h => hz ⟨h.2.1, h.2.2.1⟩, if_neg fun h => hz ⟨h.1, h.2.1⟩, Nat.zero_sub,
        Nat.cast_zero]
  | some p =>
    rw [Option.elim_some, if_neg (c := zero = true ∧ _) fun h => Option.some_ne_none p h.2.2,
      Option.getD_some, if_neg (c := _ ∧ _) fun h => absurd h.1 (by omega)]
    split <;> omega

/-- Zeros of either kind belong to the number. -/
theorem number_eq (minus zero : Bool) (width : ℕ) (precision : Option ℕ) (pre num : List Byte) :
    number minus zero width precision pre (num.leftpad (precision.getD 0) (ascii '0')) =
      field minus width (pre ++ num.leftpad
        (if zero ∧ ¬ minus ∧ precision = none then width - pre.length else precision.getD 0)
        (ascii '0')) := by
  rw [number]
  by_cases hz : zero = true ∧ ¬ minus = true ∧ precision = none
  · obtain ⟨-, hminus, rfl⟩ := id hz
    have hfull : width - (pre ++ num.leftpad (width - pre.length) (ascii '0')).length = 0 := by
      rw [List.length_append, List.length_leftpad]
      omega
    rw [if_pos hz, if_pos hz, Option.getD_none, Bool.eq_false_of_not_eq_true hminus, field_false,
      leftpad_zero, hfull, List.replicate_zero, List.nil_append]
  · rw [if_neg hz, if_neg hz]

/-- **`format_core`** puts the number into its field. -/
theorem formatCore_eq {num pre : List Byte} {width : ℕ} {precision : Option ℕ} {minus zero : Bool}
    {t : List Byte} (ht : number minus zero width precision pre (num.leftpad (precision.getD 0)
      (ascii '0')) = t) (hlen : t.length < 2 ^ 31) :
    formatCore num width (precision.elim (-1) (↑)) minus zero pre = some (.of t) := by
  rw [number_eq] at ht
  have hzeroes := zeroes_eq num.length pre.length width precision minus zero
  generalize (if zero ∧ ¬ minus ∧ precision = none then width - pre.length
    else precision.getD 0) = m at ht hzeroes
  have hbody : pre.length + (m - num.length) + num.length =
      (pre ++ num.leftpad m (ascii '0')).length := by
    rw [List.length_append, List.length_leftpad]
    omega
  have hle : (pre ++ num.leftpad m (ascii '0')).length ≤ t.length := by
    rw [← ht, field]
    split
    · rw [List.length_rightpad]
      exact le_max_right _ _
    · rw [List.length_leftpad]
      exact le_max_right _ _
  rw [formatCore, hzeroes, addInt_eq (by omega) (by omega) (by omega), Option.bind_eq_bind,
    Option.bind_some, addInt_eq (by omega) (by omega) (by omega), Option.bind_some]
  rw [← ht] at hlen ⊢
  refine Out.padded_of [] ?_ (fun ys hys => ?_) hlen
  · rw [← hbody, ← toNat_spaces width (pre.length + (m - num.length) + num.length), Nat.cast_add,
      Nat.cast_add]
  · rw [List.leftpad, ← List.append_assoc, ← List.append_assoc] at hys ⊢
    have hys' := hys
    rw [List.length_append, List.length_append] at hys'
    have hpre : (ys ++ pre).length < 2 ^ 31 := by omega
    have hzero : (ys ++ pre ++ List.replicate (m - num.length) (ascii '0')).length < 2 ^ 31 := by
      rw [List.length_append]
      omega
    rw [Out.puts_of hpre, Option.bind_eq_bind, Option.bind_some,
      Out.uartPutnch_of (Int.toNat_natCast _) hzero, Option.bind_some,
      Out.puts_of hys]

/-! ## Digits -/

/-- The shifts of the `k` lowest digits. -/
def shifts (k : ℕ) : List ℕ := (List.range k).reverse.map (4 * ·)

theorem shifts_succ (k : ℕ) : shifts (k + 1) = 4 * k :: shifts k := by
  rw [shifts, List.range_succ, List.reverse_append, List.map_append]
  rfl

theorem toNat_nibble (value : BitVec 32) (k : ℕ) :
    (value >>> (4 * k) &&& 0xF).toNat = value.toNat / 16 ^ k % 16 := by
  rw [BitVec.toNat_and, BitVec.toNat_ushiftRight, Nat.shiftRight_eq_div_pow, pow_mul]
  exact Nat.and_two_pow_sub_one_eq_mod _ 4

theorem hexLoop_true (ds : List Byte) (value : BitVec 32) (k : ℕ) :
    hexLoop ds value true (shifts k) = (places 16 k value.toNat).map fun d => ds.getD d 0 := by
  induction k with
  | zero => rfl
  | succ k ih =>
    rw [shifts_succ, hexLoop, if_pos (Or.inr rfl), ih, toNat_nibble]
    rfl

theorem hexLoop_false (ds : List Byte) (value : BitVec 32) (k : ℕ) :
    hexLoop ds value false (shifts k) =
      ((places 16 k value.toNat).dropWhile (· = 0)).map fun d => ds.getD d 0 := by
  induction k with
  | zero => rfl
  | succ k ih =>
    rw [shifts_succ, hexLoop, places]
    by_cases h : value >>> (4 * k) &&& 0xF = 0
    · have hd : value.toNat / 16 ^ k % 16 = 0 := by
        rw [← toNat_nibble, h]
        rfl
      rw [if_neg (by simpa using h), ih, List.dropWhile_cons_of_pos (by simpa using hd)]
    · have hd : value.toNat / 16 ^ k % 16 ≠ 0 := by
        rw [← toNat_nibble]
        exact fun h0 => h (BitVec.eq_of_toNat_eq h0)
      rw [if_pos (Or.inl h), hexLoop_true, toNat_nibble,
        List.dropWhile_cons_of_neg (by simpa using hd)]
      rfl

theorem u32ToHexStr_eq (value : BitVec 32) (uppercase : Bool) :
    u32ToHexStr value uppercase = digits 16 uppercase none value.toNat := by
  have hloop : hexLoop (hexDigits uppercase) value false [28, 24, 20, 16, 12, 8, 4, 0] =
      (numeral 16 value.toNat).map fun d => (hexDigits uppercase).getD d 0 := by
    rw [← dropWhile_places (k := 8) (by omega) value.isLt, ← hexLoop_false]
    rfl
  rw [u32ToHexStr, hloop, digits, Option.getD_none]
  generalize (numeral 16 value.toNat).map _ = ds
  cases ds with
  | nil => rfl
  | cons d ds => rw [if_neg (List.cons_ne_nil d ds), leftpad_one_cons]

theorem subtractLoop_eq {p : ℕ} (hp : 0 < p) (value : ℕ) :
    subtractLoop value p = (value / p, value % p) := by
  induction value using Nat.strong_induction_on with
  | _ value ih =>
    rw [subtractLoop]
    by_cases h : p ≤ value
    · rw [if_pos ⟨h, hp⟩, ih (value - p) (by omega), Nat.div_eq_sub_div hp h,
        Nat.mod_eq_sub_mod h]
    · rw [if_neg fun h' => h h'.1, Nat.div_eq_of_lt (by omega), Nat.mod_eq_of_lt (by omega)]

/-- The powers of ten of the `k` lowest digits. -/
def powers10 (k : ℕ) : List ℕ := (List.range k).reverse.map (10 ^ ·)

theorem powers10_succ (k : ℕ) : powers10 (k + 1) = 10 ^ k :: powers10 k := by
  rw [powers10, List.range_succ, List.reverse_append, List.map_append]
  rfl

theorem decLoop_true {k v : ℕ} (hv : v < 10 ^ k) :
    decLoop true v (powers10 k) = (places 10 k v).map fun d => ascii '0' + .ofNat 8 d := by
  induction k generalizing v with
  | zero => rfl
  | succ k ih =>
    have hpos : 0 < 10 ^ k := by positivity
    have hdigit : v / 10 ^ k < 10 := Nat.div_lt_of_lt_mul (by rwa [← pow_succ])
    rw [powers10_succ, decLoop, subtractLoop_eq hpos, places]
    simp only [true_or, or_true, if_true]
    rw [ih (Nat.mod_lt v hpos), places_mod le_rfl, Nat.mod_eq_of_lt hdigit]
    rfl

/-- Zeros in front are left out, except in the last place. -/
theorem decLoop_false {k v : ℕ} (hv : v < 10 ^ (k + 1)) :
    decLoop false v (powers10 (k + 1)) =
      ((numeral 10 v).map fun d => ascii '0' + .ofNat 8 d).leftpad 1 (ascii '0') := by
  induction k with
  | zero =>
    rw [powers10_succ, decLoop, subtractLoop_eq (by omega), pow_zero, Nat.div_one]
    rcases Nat.eq_zero_or_pos v with rfl | hpos
    · rw [numeral, Nat.digits_zero]
      rfl
    · rw [numeral, Nat.digits_of_lt 10 v hpos.ne' hv]
      simp only [or_true, if_true]
      rfl
  | succ k ih =>
    have hpos : 0 < 10 ^ (k + 1) := by positivity
    have hone : 10 ^ (k + 1) ≠ 1 := by
      rw [pow_succ]
      omega
    rw [powers10_succ, decLoop, subtractLoop_eq hpos]
    rcases Nat.lt_or_ge v (10 ^ (k + 1)) with hlt | hge
    · simp only [Nat.div_eq_of_lt hlt, Nat.mod_eq_of_lt hlt, ne_eq, not_true_eq_false,
        Bool.false_eq_true, hone, or_self, if_false]
      exact ih hlt
    · have hdigit : v / 10 ^ (k + 1) ≠ 0 := (Nat.div_pos hge hpos).ne'
      have hrest := Nat.mod_lt v hpos
      rw [numeral_of_pow_le (by omega) hge hv, List.map_cons, leftpad_one_cons,
        ← places_eq (by omega) hrest, ← decLoop_true hrest]
      simp only [ne_eq, hdigit, not_false_eq_true, true_or, if_true]

theorem u32ToDecStr_eq (value : BitVec 32) (uppercase : Bool) :
    u32ToDecStr value = digits 10 uppercase none value.toNat := by
  have hv : value.toNat < 10 ^ (9 + 1) := by omega
  have hdigit : ∀ d ∈ numeral 10 value.toNat,
      ascii '0' + .ofNat 8 d = (hexDigits uppercase).getD d 0 := by
    intro d hd
    have hlt : d < 10 := Nat.digits_lt_base (by omega) (List.mem_reverse.mp hd)
    cases uppercase <;> interval_cases d <;> rfl
  rw [digits, ← List.map_congr_left hdigit]
  exact decLoop_false hv

/-- No digit is needed for zero, if the precision is zero. -/
theorem leftpad_digits {base : ℕ} {uppercase : Bool} {precision : Option ℕ} {v : ℕ}
    (h : precision = some 0 → v ≠ 0) :
    (digits base uppercase none v).leftpad (precision.getD 0) (ascii '0') =
      digits base uppercase precision v := by
  rw [digits, digits, leftpad_leftpad, Option.getD_none]
  cases precision with
  | none => rfl
  | some p =>
    rw [Option.getD_some, Option.getD_some]
    rcases Nat.eq_zero_or_pos p with rfl | hp
    · have hne : numeral base v ≠ [] := fun hnil => h rfl (by
        rwa [numeral, List.reverse_eq_nil_iff, Nat.digits_eq_nil_iff_eq_zero] at hnil)
      obtain ⟨d, ds, hds⟩ := List.exists_cons_of_ne_nil hne
      rw [hds, List.map_cons, Nat.max_zero, leftpad_one_cons, leftpad_zero]
    · rw [max_eq_right hp]

/-- **Numbers are converted** with the digits that the precision demands. -/
theorem formatUnsignedU32_eq {base : ℕ} (hbase : base = 10 ∨ base = 16) {value : BitVec 32}
    {uppercase minus zero : Bool} {width : ℕ} {precision : Option ℕ} {pre t : List Byte}
    (ht : number minus zero width precision pre (digits base uppercase precision value.toNat) = t)
    (hlen : t.length < 2 ^ 31) :
    formatUnsignedU32 value base uppercase width (precision.elim (-1) (↑)) minus zero pre =
      some (.of t) := by
  have hstr : (if base = 16 then u32ToHexStr value uppercase else u32ToDecStr value) =
      digits base uppercase none value.toNat := by
    rcases hbase with rfl | rfl
    · rw [if_neg (by omega), u32ToDecStr_eq]
    · rw [if_pos rfl, u32ToHexStr_eq]
  rw [formatUnsignedU32, hstr]
  refine formatCore_eq ?_ hlen
  rw [← ht]
  congr 1
  by_cases h : precision = some 0 ∧ value = 0
  · obtain ⟨rfl, rfl⟩ := h
    have hnil : numeral base (0 : BitVec 32).toNat = [] := by
      rw [numeral, show (0 : BitVec 32).toNat = 0 from rfl, Nat.digits_zero, List.reverse_nil]
    rw [if_pos ⟨rfl, rfl⟩, digits, hnil]
    rfl
  · have hcode : ¬ (precision.elim (-1) (↑) = (0 : ℤ) ∧ value = 0) := by
      cases precision with
      | none => exact fun hc => absurd hc.1 (by decide)
      | some p => exact fun hc => h ⟨congrArg some (Int.ofNat_eq_zero.mp hc.1), hc.2⟩
    rw [if_neg hcode, leftpad_digits fun hp hv => h ⟨hp, BitVec.eq_of_toNat_eq hv⟩]

end KwsSoc.Firmware.Printf
