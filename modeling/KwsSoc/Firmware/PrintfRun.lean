import KwsSoc.Firmware.PrintfSpec

/-! # The run of `printf`

`printf` reads each directive back from the way it is written (`specification_fmt`), converts its
argument as C prescribes (`convert_prescribed`), and so sends what C prescribes for the whole format
(**`printf_prescribed`**), as long as the count of it is an `int` and all strings are terminated.
Beyond that `written` overflows, and a string that C would cut off in front of the end of its array
is read to its terminator (`printf_overflows`). -/

namespace KwsSoc.Firmware.Printf

open Numeral

/-! ## Reading a specification back -/

theorem localIsDigit_digit : ∀ d : Fin 10, localIsDigit (ascii '0' + .ofNat 8 d) = true := by
  decide

theorem toNat_digit : ∀ d : Fin 10, (ascii '0' + .ofNat 8 d - ascii '0').toNat = d := by
  decide

theorem le_foldl_decimal (digits : List (Fin 10)) (v : ℕ) :
    v ≤ digits.foldl (fun v d => 10 * v + d.val) v := by
  induction digits generalizing v with
  | nil => exact le_rfl
  | cons d digits ih => exact le_trans (by omega) (ih (10 * v + d))

theorem localParseUint_digitBytes {digits : List (Fin 10)} {v : ℕ} {rest : List Byte}
    (hlt : digits.foldl (fun v d => 10 * v + d.val) v < 2 ^ 31)
    (hrest : ∀ c ∈ rest.head?, localIsDigit c = false) :
    localParseUint v (digitBytes digits ++ rest) =
      some (digits.foldl (fun v d => 10 * v + d.val) v, rest) := by
  induction digits generalizing v with
  | nil =>
    cases rest with
    | nil => rfl
    | cons c rest =>
      have hc : localIsDigit c = false := hrest c rfl
      show localParseUint v (c :: rest) = _
      rw [localParseUint, if_neg (by simp [hc])]
      rfl
  | cons d digits ih =>
    have hstep : v <<< 3 + v <<< 1 + (ascii '0' + .ofNat 8 d - ascii '0').toNat = 10 * v + d := by
      rw [toNat_digit, Nat.shiftLeft_eq, Nat.shiftLeft_eq]
      omega
    have hle := le_foldl_decimal digits (10 * v + d)
    rw [List.foldl_cons] at hlt ⊢
    show localParseUint v ((ascii '0' + .ofNat 8 d) :: (digitBytes digits ++ rest)) = _
    rw [localParseUint, if_pos (localIsDigit_digit d), hstep, if_pos (by omega), ih hlt]

theorem parseWidth_digitBytes {digits : List (Fin 10)} {rest : List Byte}
    (hlt : decimal digits < 2 ^ 31) (hrest : ∀ c ∈ rest.head?, localIsDigit c = false) :
    parseWidth (digitBytes digits ++ rest) = some (decimal digits, rest) := by
  cases digits with
  | nil =>
    cases rest with
    | nil => rfl
    | cons c rest =>
      have hc : localIsDigit c = false := hrest c rfl
      show parseWidth (c :: rest) = _
      rw [parseWidth, if_neg (by simp [hc])]
      rfl
  | cons d digits =>
    show parseWidth ((ascii '0' + .ofNat 8 d) :: (digitBytes digits ++ rest)) = _
    rw [parseWidth, if_pos (localIsDigit_digit d)]
    exact localParseUint_digitBytes hlt hrest

theorem parsePrecision_fmt {precision : Option (List (Fin 10))} {zero : Bool} {rest : List Byte}
    (hlt : ∀ ds ∈ precision, decimal ds < 2 ^ 31)
    (hrest : ∀ c ∈ rest.head?, localIsDigit c = false ∧ c ≠ ascii '.') :
    parsePrecision zero (precisionBytes precision ++ rest) =
      some ((precision.map decimal).elim (-1) (↑), zero && precision.isNone, rest) := by
  cases precision with
  | none =>
    rw [precisionBytes, Option.elim_none, List.nil_append, Option.isNone_none, Bool.and_true]
    cases rest with
    | nil => rfl
    | cons c rest =>
      rw [parsePrecision, if_neg (hrest c rfl).2]
      rfl
  | some ds =>
    rw [precisionBytes, Option.elim_some, List.cons_append, parsePrecision, if_pos rfl,
      parseWidth_digitBytes (hlt ds rfl) fun c hc => (hrest c hc).1, Option.isNone_some,
      Bool.and_false]
    rfl

theorem parseFlags_fmt (flags : List Flag) {leftAlign zeroPad : Bool} {rest : List Byte}
    (hrest : ∀ c ∈ rest.head?, c ≠ ascii '-' ∧ c ≠ ascii '0') :
    parseFlags leftAlign zeroPad (flags.map Flag.byte ++ rest) =
      (leftAlign || decide (.minus ∈ flags), zeroPad || decide (.zero ∈ flags), rest) := by
  induction flags generalizing leftAlign zeroPad with
  | nil =>
    cases rest with
    | nil => simp [parseFlags]
    | cons c rest =>
      obtain ⟨hminus, hzero⟩ := hrest c rfl
      simp [parseFlags, hminus, hzero]
  | cons flag flags ih =>
    cases flag with
    | minus =>
      show parseFlags leftAlign zeroPad (ascii '-' :: (flags.map Flag.byte ++ rest)) = _
      rw [parseFlags, if_pos rfl, ih]
      simp
    | zero =>
      show parseFlags leftAlign zeroPad (ascii '0' :: (flags.map Flag.byte ++ rest)) = _
      rw [parseFlags, if_neg (by decide), if_pos rfl, ih]
      simp

/-! What stands behind the flags, the width and the precision cannot be taken for a part of them. -/

theorem Specifier.byte_ne (spec : Specifier) : localIsDigit spec.byte = false ∧
    spec.byte ≠ ascii '.' ∧ spec.byte ≠ ascii '-' ∧ spec.byte ≠ ascii 'l' ∧
      spec.byte ≠ ascii '%' := by
  cases spec <;> decide

theorem Specification.head_ending (c : Specification) (rest : List Byte) :
    ∀ b ∈ (c.ending ++ rest).head?,
      localIsDigit b = false ∧ b ≠ ascii '.' ∧ b ≠ ascii '-' ∧ b ≠ ascii '%' := by
  obtain ⟨hdigit, hdot, hminus, -, hpercent⟩ := c.specifier.byte_ne
  rw [ending]
  cases c.long with
  | true =>
    rintro b ⟨rfl⟩
    decide
  | false =>
    rintro b ⟨rfl⟩
    exact ⟨hdigit, hdot, hminus, hpercent⟩

theorem Specification.head_precision (c : Specification) (rest : List Byte) :
    ∀ b ∈ (precisionBytes c.precision ++ (c.ending ++ rest)).head?,
      localIsDigit b = false ∧ b ≠ ascii '-' ∧ b ≠ ascii '%' := by
  rcases c.precision with _ | ds
  · exact fun b hb => (c.head_ending rest b hb).imp_right And.right
  · rintro b ⟨rfl⟩
    decide

theorem Specification.head_width (c : Specification) (rest : List Byte) :
    ∀ b ∈ (digitBytes c.width ++ (precisionBytes c.precision ++ (c.ending ++ rest))).head?,
      b ≠ ascii '-' ∧ b ≠ ascii '0' ∧ b ≠ ascii '%' := by
  have hhead := c.width_head
  generalize c.width = digits at hhead ⊢
  rcases digits with _ | ⟨d, digits⟩
  · intro b hb
    obtain ⟨hdigit, hminus, hpercent⟩ := c.head_precision rest b hb
    exact ⟨hminus, fun h0 => absurd hdigit (by rw [h0]; decide), hpercent⟩
  · have hbyte : ∀ d : Fin 10, d ≠ 0 → ascii '0' + .ofNat 8 d ≠ ascii '-' ∧
        ascii '0' + .ofNat 8 d ≠ ascii '0' ∧ ascii '0' + .ofNat 8 d ≠ ascii '%' := by decide
    rintro b ⟨rfl⟩
    exact hbyte d (hhead d rfl)

theorem Specification.fmt_append (c : Specification) (rest : List Byte) :
    c.fmt ++ rest = c.flags.map Flag.byte ++ (digitBytes c.width ++
      (precisionBytes c.precision ++ (c.ending ++ rest))) := by
  rw [fmt, List.append_assoc, List.append_assoc, List.append_assoc]

/-- A specification is no `%`. -/
theorem Specification.head_fmt (c : Specification) (rest : List Byte) :
    (c.fmt ++ rest).head? ≠ some (ascii '%') := by
  rw [fmt_append]
  cases c.flags with
  | nil => exact fun h => (c.head_width rest _ h).2.2 rfl
  | cons flag flags => cases flag <;> exact fun h => absurd (Option.some.inj h) (by decide)

theorem Specification.dropWhile_ending (c : Specification) (rest : List Byte) :
    (c.ending ++ rest).dropWhile (· = ascii 'l') = c.specifier.byte :: rest := by
  have hne := c.specifier.byte_ne.2.2.2.1
  rw [ending]
  cases c.long <;> simp [List.dropWhile, hne]

/-- **A specification is read back** from the way it is written. -/
theorem specification_fmt (c : Specification) (rest : List Byte) (args : List Arg) (out : Out) :
    specification ⟨c.fmt ++ rest, args, out⟩ =
      (convert c.specifier.byte (decimal c.width) (c.prec.elim (-1) (↑)) c.minus
        (c.zero && c.precision.isNone) args out).map fun r => ⟨rest, r.2, r.1⟩ := by
  have hflags : ∀ b ∈ (digitBytes c.width ++ (precisionBytes c.precision ++
      (c.ending ++ rest))).head?, b ≠ ascii '-' ∧ b ≠ ascii '0' :=
    fun b hb => (c.head_width rest b hb).imp_right And.left
  have hdigit : ∀ b ∈ (precisionBytes c.precision ++ (c.ending ++ rest)).head?,
      localIsDigit b = false := fun b hb => (c.head_precision rest b hb).1
  have hdot : ∀ b ∈ (c.ending ++ rest).head?, localIsDigit b = false ∧ b ≠ ascii '.' :=
    fun b hb => (c.head_ending rest b hb).imp_right And.left
  rw [specification, c.fmt_append, parseFlags_fmt c.flags hflags]
  simp only [parseWidth_digitBytes c.width_lt hdigit, parsePrecision_fmt c.precision_lt hdot,
    c.dropWhile_ending, Bool.false_or, Option.bind_eq_bind, Option.bind_some]
  exact Option.map_eq_bind.symm

/-! ## Conversions -/

/-- The magnitude of an `int`, also of the least one. -/
theorem toNat_magnitude (v : BitVec 32) :
    (if decide (v.toInt < 0) = true then -(v + 1) + 1 else v).toNat = v.toInt.natAbs := by
  have htoInt := BitVec.toInt_eq_toNat_cond v
  have hlt := v.isLt
  by_cases hneg : v.toInt < 0
  · have hcancel : -(v + 1) + 1 = -v := by
      rw [BitVec.neg_add, BitVec.sub_add_cancel]
    rw [if_pos (by simpa using hneg), hcancel, BitVec.toNat_neg]
    omega
  · rw [if_neg (by simpa using hneg)]
    omega

/-- A precision takes the zero flag back. -/
theorem number_isNone (c : Specification) (width : ℕ) (pre ds : List Byte) :
    number c.minus (c.zero && c.precision.isNone) width c.prec pre ds =
      number c.minus c.zero width c.prec pre ds := by
  rw [number, number, Specification.prec]
  cases c.precision with
  | none => rw [Option.isNone_none, Bool.and_true]
  | some ds' => simp only [Option.map_some, reduceCtorEq, and_false, if_false]

/-- A number that has been formatted is counted. -/
theorem append_formatUnsignedU32 {base : ℕ} (hbase : base = 10 ∨ base = 16) {value : BitVec 32}
    {uppercase minus zero : Bool} {width : ℕ} {precision : Option ℕ} {pre xs t : List Byte}
    (ht : number minus zero width precision pre (digits base uppercase precision value.toNat) = t)
    (hlen : (xs ++ t).length < 2 ^ 31) (args : List Arg) :
    ((formatUnsignedU32 value base uppercase width (precision.elim (-1) (↑)) minus zero pre).bind
      fun out => ((Out.of xs).append out).bind fun o => some (o, args)) =
        some (.of (xs ++ t), args) := by
  have hlen' := hlen
  rw [List.length_append] at hlen'
  rw [formatUnsignedU32_eq hbase ht (by omega), Option.bind_some, Out.append_of hlen,
    Option.bind_some]

theorem Specification.zero_eq_false {c : Specification} (h : c.specifier.isInteger = false) :
    c.zero = false := by
  rw [zero, decide_eq_false_iff_not]
  intro hzero
  rw [c.zero_integer hzero] at h
  contradiction

/-- A string in front of its terminator. -/
theorem localStrlen_eq {s : List Byte} (h : 0 ∈ s) :
    localStrlen s = some (s.takeWhile (· ≠ 0)) := by
  induction s with
  | nil => contradiction
  | cons c s ih =>
    rw [localStrlen]
    by_cases hc : c = 0
    · rw [if_pos hc, List.takeWhile_cons_of_neg (by simpa using hc)]
    · rw [if_neg hc, ih (List.mem_of_ne_of_mem (Ne.symm hc) h), Option.map_some,
        List.takeWhile_cons_of_pos (by simpa using hc)]

theorem stringOf_eq {s : Option CArray} (hterm : ∀ s' ∈ s, 0 ∈ s'.bytes) :
    stringOf s = some ((s.elim (text "(null)" ++ [0]) CArray.bytes).takeWhile (· ≠ 0)) := by
  cases s with
  | none => rfl
  | some s => exact localStrlen_eq (hterm s rfl)

/-- A precision cuts a string off. -/
theorem take_outLen (precision : Option ℕ) (bytes : List Byte) :
    bytes.take (if precision.elim (-1 : ℤ) (↑) ≥ 0 ∧ precision.elim (-1 : ℤ) (↑) < bytes.length
      then (precision.elim (-1 : ℤ) (↑)).toNat else bytes.length) =
        precision.elim bytes bytes.take := by
  cases precision with
  | none => exact List.take_length
  | some p =>
    rw [Option.elim_some, Option.elim_some, Int.toNat_natCast]
    split_ifs with hp
    · rfl
    · rw [List.take_length, List.take_of_length_le (i := p) (by omega)]

theorem Specification.prec_eq_none {c : Specification} (h : c.specifier = .p) : c.prec = none := by
  have hnone : c.precision = none := by
    rw [← Option.not_isSome_iff_eq_none]
    intro hsome
    have hinteger := c.precision_integer hsome
    rw [h] at hinteger
    revert hinteger
    decide
  rw [prec, hnone, Option.map_none]

theorem convert_word {c : Specification} {v : BitVec 32} {xs bytes : List Byte}
    (h : c.prescribed (.word v) = some bytes) (hlen : (xs ++ bytes).length < 2 ^ 31)
    (args : List Arg) :
    convert c.specifier.byte (decimal c.width) (c.prec.elim (-1) (↑)) c.minus
      (c.zero && c.precision.isNone) (.word v :: args) (.of xs) =
        some (.of (xs ++ bytes), args) := by
  rw [Specification.prescribed] at h
  cases hspec : c.specifier with
  | d | i =>
    rw [hspec] at h
    obtain rfl : _ = bytes := Option.some.inj h
    rw [Specifier.byte, convert, if_pos (by decide)]
    refine append_formatUnsignedU32 (Or.inl rfl) ?_ hlen args
    rw [number_isNone, toNat_magnitude, Specification.integer]
    simp only [decide_eq_true_eq]
    rfl
  | u | x | X =>
    rw [hspec] at h
    obtain rfl : _ = bytes := Option.some.inj h
    rw [Specifier.byte, convert, if_neg (by decide), if_pos (by decide)]
    exact append_formatUnsignedU32 (by decide) (number_isNone c _ _ _) hlen args
  | p =>
    rw [hspec] at h
    obtain rfl : _ = bytes := Option.some.inj h
    rw [Specifier.byte, convert, if_neg (by decide), if_neg (by decide), if_pos rfl]
    refine append_formatUnsignedU32 (Or.inr rfl) ?_ hlen args
    rw [c.zero_eq_false (by rw [hspec]; rfl), c.prec_eq_none hspec, number, Bool.false_and,
      if_neg (by simp)]
  | c =>
    rw [hspec] at h
    obtain rfl : _ = bytes := Option.some.inj h
    rw [Specifier.byte, convert, if_neg (by decide), if_neg (by decide), if_neg (by decide),
      if_pos rfl]
    show (sendField (.of xs) _ (decimal c.width) c.minus).bind (fun o => some (o, args)) = _
    rw [sendField_of hlen, Option.bind_some]
  | s =>
    rw [hspec] at h
    contradiction

theorem convert_str {c : Specification} {s : Option CArray} {xs bytes : List Byte}
    (h : c.prescribed (.str s) = some bytes) (hterm : ∀ s' ∈ s, 0 ∈ s'.bytes)
    (hlen : (xs ++ bytes).length < 2 ^ 31) (args : List Arg) :
    convert c.specifier.byte (decimal c.width) (c.prec.elim (-1) (↑)) c.minus
      (c.zero && c.precision.isNone) (.str s :: args) (.of xs) =
        some (.of (xs ++ bytes), args) := by
  rw [Specification.prescribed] at h
  by_cases hspec : c.specifier = .s
  · rw [if_pos hspec, stringBytes, Option.map_eq_some_iff] at h
    obtain ⟨chars, hchars, rfl⟩ := h
    have h0 : 0 ∈ s.elim (text "(null)" ++ [0]) CArray.bytes := by
      cases s with
      | none => exact List.mem_append_right _ (List.mem_singleton_self 0)
      | some s => exact hterm s rfl
    rw [if_pos (Or.inl h0), Option.some_inj] at hchars
    rw [hspec, Specifier.byte, convert, if_neg (by decide), if_neg (by decide),
      if_neg (by decide), if_neg (by decide), if_pos rfl]
    simp only [vaStr, stringOf_eq hterm, take_outLen, hchars, sendField_of hlen,
      Option.bind_eq_bind, Option.bind_some]
    rfl
  · rw [if_neg hspec] at h
    contradiction

/-- **Every conversion sends what C prescribes.** -/
theorem convert_prescribed {c : Specification} {arg : Arg} {xs bytes : List Byte}
    (h : c.prescribed arg = some bytes) (hterm : ∀ s, arg = .str (some s) → 0 ∈ s.bytes)
    (hlen : (xs ++ bytes).length < 2 ^ 31) (args : List Arg) :
    convert c.specifier.byte (decimal c.width) (c.prec.elim (-1) (↑)) c.minus
      (c.zero && c.precision.isNone) (arg :: args) (.of xs) = some (.of (xs ++ bytes), args) := by
  cases arg with
  | word v => exact convert_word h hlen args
  | str s => exact convert_str h (fun s' hs' => hterm s' (congrArg Arg.str hs')) hlen args

/-! ## The loop -/

theorem round_char {c : Byte} (hc : c ≠ ascii '%') {xs : List Byte}
    (hlen : (xs ++ [c]).length < 2 ^ 31) (fmt : List Byte) (args : List Arg) :
    round c ⟨fmt, args, .of xs⟩ = some ⟨fmt, args, .of (xs ++ [c])⟩ := by
  rw [round, if_pos hc, Out.puts_of hlen]
  rfl

theorem round_percent {xs : List Byte} (hlen : (xs ++ [ascii '%']).length < 2 ^ 31)
    (fmt : List Byte) (args : List Arg) :
    round (ascii '%') ⟨ascii '%' :: fmt, args, .of xs⟩ =
      some ⟨fmt, args, .of (xs ++ [ascii '%'])⟩ := by
  rw [round, if_neg (not_not.mpr rfl), if_pos (List.head?_cons ..), Out.puts_of hlen]
  rfl

theorem round_convert {c : Specification} {arg : Arg} (xs : List Byte) {bytes : List Byte}
    (h : c.prescribed arg = some bytes) (hterm : ∀ s, arg = .str (some s) → 0 ∈ s.bytes)
    (hlen : (xs ++ bytes).length < 2 ^ 31) (rest : List Byte) (args : List Arg) :
    round (ascii '%') ⟨c.fmt ++ rest, arg :: args, .of xs⟩ =
      some ⟨rest, args, .of (xs ++ bytes)⟩ := by
  rw [round, if_neg (not_not.mpr rfl), if_neg (c.head_fmt rest), specification_fmt,
    convert_prescribed h hterm hlen args]
  rfl

/-- A round that reads a directive and sends `ys` for it. -/
theorem loop_round {c : Byte} (fs ys : List Byte) {rest xs t : List Byte} {args args' : List Arg} {fuel : ℕ}
    (hround : round c ⟨fs ++ rest, args, .of xs⟩ = some ⟨rest, args', .of (xs ++ ys)⟩)
    (hfuel : (c :: fs ++ rest).length ≤ fuel)
    (hrest : ∀ fuel, rest.length ≤ fuel →
      loop fuel ⟨rest, args', .of (xs ++ ys)⟩ = some (.of (xs ++ ys ++ t))) :
    loop fuel ⟨c :: fs ++ rest, args, .of xs⟩ = some (.of (xs ++ (ys ++ t))) := by
  rw [List.length_append, List.length_cons] at hfuel
  obtain ⟨fuel, rfl⟩ : ∃ n, fuel = n + 1 := ⟨fuel - 1, by omega⟩
  show (round c ⟨fs ++ rest, args, .of xs⟩).bind (loop fuel) = _
  rw [hround, Option.bind_some, hrest fuel (by omega), List.append_assoc]

/-- **What the loop sends** for the directives that are left. -/
theorem loop_fmt {ds : List Directive} {args : List Arg} (xs : List Byte) {t : List Byte}
    (h : prescribed ds args = some t) (hterm : Terminated ds args)
    (hlen : (xs ++ t).length < 2 ^ 31) {fuel : ℕ}
    (hfuel : (ds.flatMap Directive.fmt).length ≤ fuel) :
    loop fuel ⟨ds.flatMap Directive.fmt, args, .of xs⟩ = some (.of (xs ++ t)) := by
  induction ds, args using prescribed.induct generalizing xs t fuel with
  | case1 args =>
    obtain rfl : [] = t := Option.some.inj h
    rw [List.append_nil]
    cases fuel <;> rfl
  | case2 c ordinary ds args ih =>
    obtain ⟨t, ht, rfl⟩ := Option.map_eq_some_iff.mp h
    rw [List.append_cons] at hlen
    have hround : (xs ++ [c]).length < 2 ^ 31 := by
      rw [List.length_append] at hlen
      omega
    exact loop_round [] [c] (round_char ordinary.1 hround _ args) hfuel
      fun fuel' hfuel' => ih _ ht hterm hlen hfuel'
  | case3 ds args ih =>
    obtain ⟨t, ht, rfl⟩ := Option.map_eq_some_iff.mp h
    rw [List.append_cons] at hlen
    have hround : (xs ++ [ascii '%']).length < 2 ^ 31 := by
      rw [List.length_append] at hlen
      omega
    exact loop_round [ascii '%'] [ascii '%'] (round_percent hround _ args) hfuel
      fun fuel' hfuel' => ih _ ht hterm hlen hfuel'
  | case4 c ds => contradiction
  | case5 c ds arg args ih =>
    obtain ⟨bytes, hbytes, h⟩ := Option.bind_eq_some_iff.mp h
    obtain ⟨t', ht, h⟩ := Option.bind_eq_some_iff.mp h
    obtain rfl : bytes ++ t' = t := Option.some.inj h
    rw [← List.append_assoc] at hlen
    have hround : (xs ++ bytes).length < 2 ^ 31 := by
      rw [List.length_append] at hlen
      omega
    exact loop_round _ _ (round_convert xs hbytes hterm.1 hround _ args) hfuel
      fun fuel' hfuel' => ih _ ht hterm.2 hlen hfuel'

/-- **`printf` sends what C prescribes** and returns how much it has sent, if this is an `int` and
all strings are terminated. -/
theorem printf_prescribed {ds : List Directive} {args : List Arg} {t : List Byte}
    (h : prescribed ds args = some t) (hterm : Terminated ds args) (hlen : t.length < 2 ^ 31) :
    printf (ds.flatMap Directive.fmt) args = some ⟨t, t.length⟩ :=
  loop_fmt [] h hterm hlen le_rfl

/-- The least `int` and no string. -/
theorem printf_intMin : printf (text "%-13d|%.2s") [.word (.intMin 32), .str none] =
    some ⟨text "-2147483648  |(n", 16⟩ := by
  let d : Specification := ⟨[.minus], [1, 3], none, false, .d, by decide, by decide, by simp,
    by decide, by simp, by simp⟩
  let s : Specification := ⟨[], [], some [2], false, .s, by decide, by decide, by simp [decimal],
    by simp, by simp, by simp⟩
  have hfmt : [Directive.convert d, .char (ascii '|') (by decide), .convert s].flatMap
      Directive.fmt = text "%-13d|%.2s" := by decide
  rw [← hfmt]
  exact printf_prescribed (by decide) ⟨by simp, by simp, trivial⟩ (by decide)

/-! The count overflows, and strings are read up to a terminator. -/

/-- `%2147483647c`. -/
def widest : Specification :=
  ⟨[], [2, 1, 4, 7, 4, 8, 3, 6, 4, 7], none, false, .c, by decide, by decide, by simp, by simp,
    by simp, by simp⟩

/-- `%.1s`. -/
def shortest : Specification :=
  ⟨[], [], some [1], false, .s, by decide, by decide, by simp [decimal], by simp, by simp, by simp⟩

theorem loop_eq_none {c : Byte} {fmt : List Byte} {args : List Arg} {out : Out} (fuel : ℕ)
    (h : round c ⟨fmt, args, out⟩ = none) : loop fuel ⟨c :: fmt, args, out⟩ = none := by
  cases fuel with
  | zero => rfl
  | succ fuel =>
    rw [loop, h]
    rfl

theorem prescribed_widest (v : BitVec 32) :
    widest.prescribed (.word v) =
      some (List.replicate 2147483646 (ascii ' ') ++ [v.setWidth 8]) := by
  have hwidth : decimal widest.width = 2147483646 + 1 := by decide
  have hminus : widest.minus = false := rfl
  show some (field widest.minus (decimal widest.width) [v.setWidth 8]) = _
  rw [hwidth, hminus, field_false, List.length_singleton, Nat.add_sub_cancel]

theorem printf_overflows :
    (prescribed [.convert widest, .char (ascii 'b') (by decide)] [.word 97] =
        some (List.replicate 2147483646 (ascii ' ') ++ text "ab") ∧
      printf (text "%2147483647cb") [.word 97] = none) ∧
    (prescribed [.convert shortest] [.str (some ⟨text "a", by decide⟩)] = some (text "a") ∧
      printf (text "%.1s") [.str (some ⟨text "a", by decide⟩)] = none) := by
  have hfmt : text "%2147483647cb" = ascii '%' :: (widest.fmt ++ [ascii 'b']) := by decide
  have hlen (v : BitVec 32) :
      ([] ++ (List.replicate 2147483646 (ascii ' ') ++ [v.setWidth 8])).length = 2147483647 := by
    rw [List.nil_append, List.length_append, List.length_replicate, List.length_singleton]
  have hround := round_convert [] (prescribed_widest 97) (by simp) (by rw [hlen]; omega)
    [ascii 'b'] []
  refine ⟨⟨?_, ?_⟩, ?_, ?_⟩
  · rw [prescribed, prescribed_widest, Option.bind_eq_bind, Option.bind_some]
    show some (List.replicate _ _ ++ _ ++ _) = _
    rw [List.append_assoc]
    rfl
  · have hzero : (⟨[], 0⟩ : Out) = .of [] := rfl
    rw [hfmt, printf, List.length_cons, loop, hzero, hround, Option.bind_eq_bind, Option.bind_some]
    refine loop_eq_none _ ?_
    rw [round, if_pos (by decide), Out.puts, Out.of, hlen]
    rfl
  · decide
  · decide

end KwsSoc.Firmware.Printf
