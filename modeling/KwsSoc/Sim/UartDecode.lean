import KwsSoc.Lib.Waveform

/-! # The UART decoder of the simulators

A model of the UART TX decoder in the main loops of `kws_soc_vpi.cpp` and `kws_soc_tb.cpp`: it
waits for the line to go low, samples it in the middle of each of the eight data bits, on a timer
that counts `uart_cycles_per_bit`, and prints the character in the middle of the stop bit, at which
it does not look. **`decodes_iff`**: it prints the bytes that are sent, for all of them, exactly when
the bits of the transmitter are so long that each is sampled in time (`InTolerance`). -/

namespace KwsSoc.Sim

open Waveform

/-! ## The decoder -/

/-- The decode state, with what has been printed. `UART_IDLE` is 0, `UART_START` is 1 and
`UART_STOP` is 9. -/
structure UartDecode where
  uartState : ℕ
  uartBitTimer : ℤ
  uartShifter : BitVec 32
  printed : List (BitVec 8)
  deriving DecidableEq

namespace UartDecode

/-- One cycle, for `uart_cycles_per_bit`. -/
def step (uartCyclesPerBit : ℕ) (s : UartDecode) (uartTx : Bool) : UartDecode :=
  if s.uartState = 0 then
    if !uartTx then
      { s with
        uartState := 1
        uartBitTimer := uartCyclesPerBit + (uartCyclesPerBit / 2 : ℕ) }
    else s
  else
    let s := { s with uartBitTimer := s.uartBitTimer - 1 }
    if s.uartBitTimer = 0 then
      if s.uartState ≥ 1 ∧ s.uartState < 9 then
        { s with
          uartShifter := s.uartShifter ||| (if uartTx then 1#32 else 0#32) <<< (s.uartState - 1)
          uartBitTimer := uartCyclesPerBit
          uartState := s.uartState + 1 }
      else if s.uartState = 9 then
        { s with
          printed := s.printed ++ [s.uartShifter.setWidth 8]
          uartShifter := 0
          uartState := 0 }
      else s
    else s

/-- A stretch of cycles. -/
def run (uartCyclesPerBit : ℕ) (s : UartDecode) (uartTx : List Bool) : UartDecode :=
  uartTx.foldl (step uartCyclesPerBit) s

/-- The decoder between two characters. -/
def idle (printed : List (BitVec 8)) : UartDecode := ⟨0, 0, 0, printed⟩

/-! ## The line -/

/-- The levels of a character: the start bit, the data bits, lowest first, and the stop bit. -/
def symbol (byte : BitVec 8) : ℕ → Bool
  | 0 => false
  | b + 1 => if b < 8 then byte.getLsbD b else true

/-- A character on the line, symbol `b` for `len b` cycles; the last one goes on until the next
character begins. -/
def frame (len : ℕ → ℕ) (byte : BitVec 8) : List Bool := wave len (symbol byte) 10

/-- **The tolerance** of a decoder with `c` cycles a bit: each data bit is sampled between its edges,
and the line is high from the printing of the character on. -/
structure InTolerance (c : ℕ) (len : ℕ → ℕ) : Prop where
  start : 0 < len 0
  data : ∀ b, 1 ≤ b → b < 9 → edge len b ≤ b * c + c / 2 ∧ b * c + c / 2 < edge len (b + 1)
  stop : edge len 9 ≤ 9 * c + c / 2 + 1
  long : 9 * c + c / 2 + 1 ≤ edge len 10

/-! ## One character -/

variable {c : ℕ} {s : UartDecode} {l : List Bool} {printed : List (BitVec 8)}

theorem run_append (c : ℕ) (s : UartDecode) (l l' : List Bool) :
    run c s (l ++ l') = run c (run c s l) l' := List.foldl_append

/-- A high line starts nothing. -/
theorem run_high (n : ℕ) : run c (idle printed) (List.replicate n true) = idle printed := by
  induction n with
  | zero => rfl
  | succ n ih =>
    rw [List.replicate_succ]
    exact ih

/-- While the timer runs, the line does not matter. -/
theorem run_wait (hs : s.uartState ≠ 0) (hl : (l.length : ℤ) < s.uartBitTimer) :
    run c s l = { s with uartBitTimer := s.uartBitTimer - l.length } := by
  induction l generalizing s with
  | nil =>
    show s = _
    rw [List.length_nil, Nat.cast_zero, sub_zero]
  | cons x l ih =>
    rw [List.length_cons, Nat.cast_succ] at hl
    have hstep : step c s x = { s with uartBitTimer := s.uartBitTimer - 1 } := by
      unfold step
      rw [if_neg hs]
      simp only
      rw [if_neg (by omega)]
    show run c (step c s x) l = _
    have hrest := ih (s := { s with uartBitTimer := s.uartBitTimer - 1 }) hs (lt_sub_iff_add_lt.mpr hl)
    rw [hstep, hrest, List.length_cons, Nat.cast_succ]
    simp only [UartDecode.mk.injEq, true_and, and_true]
    omega

/-- A bit time: the timer runs out on its last cycle. -/
theorem run_bit (hs : s.uartState ≠ 0) (hc : 0 < c) (hl : l.length = c) (ht : s.uartBitTimer = c) :
    run c s l = step c { s with uartBitTimer := 1 } (l.getD (c - 1) true) := by
  have hsplit : l = l.take (c - 1) ++ [l.getD (c - 1) true] := by
    have hlt : c - 1 < l.length := by omega
    rw [List.getD_eq_getElem?_getD, List.getElem?_eq_getElem hlt, Option.getD_some,
      List.take_append_getElem hlt, Nat.sub_add_cancel hc, ← hl, List.take_length]
  have htake : (l.take (c - 1)).length = c - 1 := by
    rw [List.length_take]
    omega
  rw [hsplit, run_append, run_wait hs (by omega), htake, ht, ← hsplit]
  show step c _ _ = _
  congr 2
  omega

/-- The sample of data bit `k`. -/
def sample (c : ℕ) (l : List Bool) (k : ℕ) : Bool := l.getD ((k + 1) * c + c / 2) true

/-- The shifter with the first `k` samples. -/
def shifted (c : ℕ) (l : List Bool) : ℕ → BitVec 32
  | 0 => 0
  | k + 1 => shifted c l k ||| (if sample c l k then 1#32 else 0#32) <<< k

/-- What is printed. -/
def sampled (c : ℕ) (l : List Bool) : BitVec 8 := (shifted c l 8).setWidth 8

theorem getLsbD_shifted (c : ℕ) (l : List Bool) (k j : ℕ) (hk : k ≤ 32) :
    (shifted c l k).getLsbD j = (decide (j < k) && sample c l j) := by
  induction k with
  | zero => simp [shifted]
  | succ k ih =>
    rw [shifted, BitVec.getLsbD_or, ih (by omega), BitVec.getLsbD_shiftLeft]
    rcases Nat.lt_trichotomy j k with hlt | rfl | hgt
    · simp [hlt, hlt.trans (Nat.lt_succ_self k)]
    · cases sample c l j <;> simp [(by omega : j < 32)]
    · have hne : ¬ j < k + 1 := by omega
      have hone : (1#32).getLsbD (j - k) = false := by
        rw [BitVec.getLsbD_one]
        simp only [Bool.and_eq_false_iff, decide_eq_false_iff_not]
        omega
      cases sample c l k <;> simp [hgt.not_gt, hne, hone]

theorem getLsbD_sampled {c : ℕ} {l : List Bool} {j : ℕ} (hj : j < 8) :
    (sampled c l).getLsbD j = sample c l j := by
  rw [sampled, BitVec.getLsbD_setWidth, getLsbD_shifted c l 8 j (by omega), decide_eq_true hj,
    Bool.true_and, Bool.true_and]

/-- **The first `k` data bits.** -/
theorem run_data (hc : 0 < c) (h0 : l.head? = some false) {k : ℕ} (hk : k ≤ 8)
    (hl : k * c + c / 2 + 1 ≤ l.length) :
    run c (idle printed) (l.take (k * c + c / 2 + 1)) = ⟨k + 1, c, shifted c l k, printed⟩ := by
  induction k with
  | zero =>
    obtain ⟨rest, rfl⟩ : ∃ rest, l = false :: rest := by
      cases l with
      | nil => cases h0
      | cons x rest => exact ⟨rest, by rw [Option.some.inj h0]⟩
    rw [Nat.zero_mul, Nat.zero_add, List.take_succ_cons]
    rw [Nat.zero_mul, Nat.zero_add, List.length_cons] at hl
    have hlen : (rest.take (c / 2)).length = c / 2 := by
      rw [List.length_take]
      omega
    show run c ⟨1, c + (c / 2 : ℕ), 0, printed⟩ _ = _
    rw [run_wait Nat.one_ne_zero (by rw [hlen]; simp only; omega), hlen]
    simp only [UartDecode.mk.injEq, true_and, shifted, and_true]
    omega
  | succ k ih =>
    rw [Nat.succ_mul] at hl ⊢
    have hsum : k * c + c + c / 2 + 1 = (k * c + c / 2 + 1) + c := by omega
    rw [hsum, List.take_add, run_append, ih (by omega) (by omega)]
    have hlen : ((l.drop (k * c + c / 2 + 1)).take c).length = c := by
      rw [List.length_take, List.length_drop]
      omega
    rw [run_bit (Nat.succ_ne_zero k) hc hlen rfl]
    have hlast : ((l.drop (k * c + c / 2 + 1)).take c).getD (c - 1) true = sample c l k := by
      rw [sample, Nat.succ_mul, List.getD_eq_getElem?_getD, List.getD_eq_getElem?_getD,
        List.getElem?_take_of_lt (by omega), List.getElem?_drop]
      congr 2
      omega
    rw [hlast]
    unfold step
    simp only
    rw [if_neg (Nat.succ_ne_zero k), sub_self, if_pos rfl, if_pos (by omega), shifted,
      Nat.add_sub_cancel]

/-- **A character is printed** in the middle of its stop bit. -/
theorem run_char (hc : 0 < c) (h0 : l.head? = some false) (hl : 9 * c + c / 2 + 1 ≤ l.length) :
    run c (idle printed) (l.take (9 * c + c / 2 + 1)) = idle (printed ++ [sampled c l]) := by
  have hsum : 9 * c + c / 2 + 1 = (8 * c + c / 2 + 1) + c := by omega
  rw [hsum, List.take_add, run_append, run_data hc h0 (by omega) (by omega)]
  have hlen : ((l.drop (8 * c + c / 2 + 1)).take c).length = c := by
    rw [List.length_take, List.length_drop]
    omega
  rw [run_bit (Nat.succ_ne_zero 8) hc hlen rfl]
  rfl

/-! ## In tolerance -/

section Frame

variable {len : ℕ → ℕ} {byte : BitVec 8}

variable (byte) in
/-- A sample in symbol `b`. -/
theorem frame_getElem? {b i : ℕ} (hb : b < 10) (hle : edge len b ≤ i) (hlt : i < edge len (b + 1)) :
    (frame len byte)[i]? = some (symbol byte b) := wave_getElem? hb hle hlt

variable (len byte) in
theorem length_frame : (frame len byte).length = edge len 10 := length_wave len _ 10

theorem head_frame (h : 0 < len 0) : (frame len byte).head? = some false := by
  rw [List.head?_eq_getElem?]
  refine frame_getElem? byte (by decide : 0 < 10) (Nat.zero_le _) ?_
  rw [edge, edge]
  omega

/-- **A character in tolerance** is printed, and the decoder waits for the next one. -/
theorem run_frame (hc : 0 < c) (h : InTolerance c len) :
    run c (idle printed) (frame len byte) = idle (printed ++ [byte]) := by
  have hlong := h.long
  rw [← length_frame len byte] at hlong
  have hsampled : sampled c (frame len byte) = byte := by
    apply BitVec.eq_of_getLsbD_eq
    intro j hj
    obtain ⟨hle, hlt⟩ := h.data (j + 1) (by omega) (by omega)
    rw [getLsbD_sampled hj, sample, List.getD_eq_getElem?_getD, frame_getElem? byte (by omega) hle hlt,
      Option.getD_some, symbol, if_pos hj]
  -- the line is high behind the sample of the stop bit
  have hrest : (frame len byte).drop (9 * c + c / 2 + 1) =
      List.replicate ((frame len byte).length - (9 * c + c / 2 + 1)) true := by
    rw [List.eq_replicate_iff, List.length_drop]
    refine ⟨rfl, fun x hx => ?_⟩
    obtain ⟨i, hi, rfl⟩ := List.getElem_of_mem hx
    have hin : 9 * c + c / 2 + 1 + i < edge len (9 + 1) := by
      rw [List.length_drop, length_frame] at hi
      exact Nat.add_lt_of_lt_sub' hi
    have hlevel := frame_getElem? byte (by decide : 9 < 10)
      (h.stop.trans (Nat.le_add_right _ i)) hin
    rw [← List.getElem?_drop, List.getElem?_eq_getElem hi] at hlevel
    exact Option.some.inj hlevel
  rw [← List.take_append_drop (9 * c + c / 2 + 1) (frame len byte), run_append,
    run_char hc (head_frame h.start) hlong, hrest, run_high, hsampled]

/-- **Any characters in tolerance**, each with timings of its own. -/
theorem run_frames (hc : 0 < c) {frames : List (BitVec 8 × (ℕ → ℕ))}
    (h : ∀ f ∈ frames, InTolerance c f.2) :
    run c (idle printed) (frames.flatMap fun f => frame f.2 f.1) =
      idle (printed ++ frames.map Prod.fst) := by
  induction frames generalizing printed with
  | nil =>
    rw [List.map_nil, List.append_nil]
    rfl
  | cons f frames ih =>
    rw [List.flatMap_cons, run_append, run_frame hc (h f List.mem_cons_self),
      ih fun g hg => h g (List.mem_cons_of_mem f hg), List.append_assoc, List.map_cons]
    rfl

end Frame

/-! ## Out of tolerance -/

/-- What is printed stays printed. -/
theorem isPrefix_printed (s : UartDecode) (l : List Bool) : s.printed <+: (run c s l).printed := by
  induction l generalizing s with
  | nil => exact List.prefix_rfl
  | cons x l ih =>
    refine List.IsPrefix.trans ?_ (ih (step c s x))
    unfold step
    split
    · split <;> exact List.prefix_rfl
    · simp only
      split
      · split
        · exact List.prefix_rfl
        · split
          · exact List.prefix_append _ _
          · exact List.prefix_rfl
      · exact List.prefix_rfl

/-- A character takes its time: until then the decoder is not idle. -/
theorem run_busy (hs : 1 ≤ s.uartState) (hs' : s.uartState ≤ 9) (ht : 0 < s.uartBitTimer)
    (hc : 0 < c) (hl : (l.length : ℤ) < s.uartBitTimer + (9 - s.uartState : ℕ) * c) :
    (run c s l).uartState ≠ 0 := by
  induction l generalizing s with
  | nil => exact Nat.one_le_iff_ne_zero.mp hs
  | cons x l ih =>
    rw [List.length_cons, Nat.cast_succ] at hl
    show (run c (step c s x) l).uartState ≠ 0
    unfold step
    rw [if_neg (Nat.one_le_iff_ne_zero.mp hs)]
    simp only
    by_cases hend : s.uartBitTimer - 1 = 0
    · rw [if_pos hend]
      have hlt : s.uartState < 9 := by
        by_contra hge
        rw [(by omega : 9 - s.uartState = 0), Nat.cast_zero, zero_mul] at hl
        omega
      rw [if_pos ⟨hs, hlt⟩]
      refine ih (Nat.le_add_left 1 _) hlt (Int.natCast_pos.mpr hc) ?_
      -- one bit time less to go
      have hbits : ((9 - s.uartState : ℕ) : ℤ) * c = c + (9 - (s.uartState + 1) : ℕ) * c := by
        rw [(by omega : 9 - s.uartState = (9 - (s.uartState + 1)) + 1), Nat.cast_succ]
        ring
      show (l.length : ℤ) < c + (9 - (s.uartState + 1) : ℕ) * c
      omega
    · rw [if_neg hend]
      refine ih hs hs' ?_ ?_
      · show 0 < s.uartBitTimer - 1
        omega
      · show (l.length : ℤ) < s.uartBitTimer - 1 + (9 - s.uartState : ℕ) * c
        omega

/-- A character that is too short is not printed in time. -/
theorem run_short (hc : 0 < c) (h0 : l.head? = some false) (hl : l.length < 9 * c + c / 2 + 1) :
    (run c (idle printed) l).uartState ≠ 0 := by
  obtain ⟨rest, rfl⟩ : ∃ rest, l = false :: rest := by
    cases l with
    | nil => cases h0
    | cons x rest => exact ⟨rest, by rw [Option.some.inj h0]⟩
  rw [List.length_cons] at hl
  show (run c ⟨1, c + (c / 2 : ℕ), 0, printed⟩ rest).uartState ≠ 0
  refine run_busy le_rfl (Nat.le_add_left 1 8) ?_ hc ?_ <;> simp only <;> omega

/-- From idle to idle a line that goes low prints something. -/
theorem printed_of_low (hc : 0 < c) (h0 : l.head? = some false)
    (h : run c (idle printed) l = idle printed) : False := by
  rcases Nat.lt_or_ge l.length (9 * c + c / 2 + 1) with hshort | hlong
  · exact run_short hc h0 hshort (congrArg UartDecode.uartState h)
  · rw [← List.take_append_drop (9 * c + c / 2 + 1) l, run_append, run_char hc h0 hlong] at h
    have hle := (isPrefix_printed (c := c) (idle (printed ++ [sampled c l]))
      (l.drop (9 * c + c / 2 + 1))).length_le
    rw [h] at hle
    simp only [idle, List.length_append, List.length_singleton] at hle
    omega

/-- A symbol that carries bit `j` of every byte is data bit `j`. -/
theorem symbol_of_forall {b j : ℕ} (hj : j < 8) (h : ∀ byte, symbol byte b = byte.getLsbD j) :
    b = j + 1 := by
  cases b with
  | zero =>
    have hones := h (BitVec.allOnes 8)
    rw [BitVec.getLsbD_allOnes, decide_eq_true hj] at hones
    cases hones
  | succ b =>
    by_cases hb : b < 8
    · have hone := h (BitVec.twoPow 8 j)
      rw [symbol, if_pos hb, BitVec.getLsbD_twoPow, BitVec.getLsbD_twoPow, decide_eq_true hj,
        decide_eq_true rfl, Bool.true_and, Bool.true_and, decide_eq_true_iff] at hone
      rw [hone]
    · have hzero := h 0
      rw [symbol, if_neg hb] at hzero
      simp at hzero

section Frame

variable {len : ℕ → ℕ}

/-- **A transmitter whose characters are all printed is in tolerance.** -/
theorem inTolerance_of_run (hc : 0 < c)
    (h : ∀ byte, run c (idle []) (frame len byte) = idle [byte]) : InTolerance c len := by
  -- without a start bit a byte of ones is a high line
  have hstart : 0 < len 0 := by
    by_contra hzero
    have hhigh : frame len (BitVec.allOnes 8) =
        List.replicate (frame len (BitVec.allOnes 8)).length true := by
      rw [List.eq_replicate_iff]
      refine ⟨rfl, fun x hx => ?_⟩
      obtain ⟨i, hi, rfl⟩ := List.getElem_of_mem hx
      obtain ⟨b, hb, hle, hlt⟩ := exists_level (length_frame len (BitVec.allOnes 8) ▸ hi)
      have hlevel := frame_getElem? (BitVec.allOnes 8) hb hle hlt
      rw [List.getElem?_eq_getElem hi] at hlevel
      rw [Option.some.inj hlevel]
      cases b with
      | zero =>
        rw [edge, edge] at hlt
        omega
      | succ b =>
        rw [symbol]
        split
        · rw [BitVec.getLsbD_allOnes]
          exact decide_eq_true ‹_›
        · rfl
    have hnone := h (BitVec.allOnes 8)
    rw [hhigh, run_high] at hnone
    cases congrArg UartDecode.printed hnone
  -- a short one is not printed yet
  have hlong : 9 * c + c / 2 + 1 ≤ edge len 10 := by
    by_contra hshort
    rw [← length_frame len 0, not_le] at hshort
    exact run_short hc (head_frame hstart) hshort (congrArg UartDecode.uartState (h 0))
  have hchar (byte : BitVec 8) : run c (idle [sampled c (frame len byte)])
      ((frame len byte).drop (9 * c + c / 2 + 1)) = idle [byte] := by
    have hrun := h byte
    rwa [← List.take_append_drop (9 * c + c / 2 + 1) (frame len byte), run_append,
      run_char hc (head_frame hstart) ((length_frame len _).symm ▸ hlong)] at hrun
  -- the samples are the bits of every byte
  have hsampled (byte : BitVec 8) : sampled c (frame len byte) = byte := by
    have hprefix := isPrefix_printed (c := c) (idle [sampled c (frame len byte)])
      ((frame len byte).drop (9 * c + c / 2 + 1))
    rw [hchar byte] at hprefix
    exact List.head_eq_of_cons_eq (List.IsPrefix.eq_of_length hprefix rfl)
  have hdata : ∀ b, 1 ≤ b → b < 9 → edge len b ≤ b * c + c / 2 ∧ b * c + c / 2 < edge len (b + 1) := by
    intro b hb hb'
    obtain ⟨j, rfl⟩ := Nat.exists_eq_add_of_le' hb
    have hin : (j + 1) * c + c / 2 < edge len 10 := by
      have hle : (j + 1) * c ≤ 9 * c := Nat.mul_le_mul_right c (by omega)
      omega
    obtain ⟨b', hlt', hle, hlt⟩ := exists_level hin
    have hsymbol : b' = j + 1 := by
      refine symbol_of_forall (by omega) fun byte => ?_
      have hbit := getLsbD_sampled (c := c) (l := frame len byte) (by omega : j < 8)
      rw [hsampled byte, sample, List.getD_eq_getElem?_getD, frame_getElem? byte hlt' hle hlt,
        Option.getD_some] at hbit
      exact hbit.symm
    rw [hsymbol] at hle hlt
    exact ⟨hle, hlt⟩
  refine ⟨hstart, hdata, ?_, hlong⟩
  -- a data bit that goes on is taken for a start bit
  by_contra hstop
  have hlow : ((frame len 0).drop (9 * c + c / 2 + 1)).head? = some false := by
    rw [List.head?_drop]
    refine frame_getElem? 0 (by decide : 8 < 10) ?_ (not_le.mp hstop)
    have h8 := (hdata 8 (by decide) (by decide)).1
    omega
  have hidle := hchar 0
  rw [hsampled 0] at hidle
  exact printed_of_low hc hlow hidle

end Frame

/-- A transmitter with `n` cycles for every bit. -/
theorem inTolerance_steady {n : ℕ} (hn : 0 < n) :
    InTolerance c (fun _ => n) ↔
      9 * n ≤ 9 * c + c / 2 + 1 ∧ 8 * n ≤ 8 * c + c / 2 ∧ 8 * c + c / 2 < 9 * n ∧
        9 * c + c / 2 + 1 ≤ 10 * n := by
  have hedge (b : ℕ) : edge (fun _ => n) b = b * n := by
    induction b with
    | zero => rw [edge, Nat.zero_mul]
    | succ b ih => rw [edge, ih, Nat.succ_mul]
  constructor
  · intro h
    obtain ⟨h8, h9⟩ := h.data 8 (by decide) (by decide)
    have hstop := h.stop
    have hlong := h.long
    simp only [hedge] at h8 h9 hstop hlong
    exact ⟨hstop, h8, h9, hlong⟩
  · rintro ⟨hstop, h8, h9, hlong⟩
    refine ⟨hn, fun b hb hb' => ?_, by rwa [hedge], by rwa [hedge]⟩
    rw [hedge, hedge]
    interval_cases b <;> omega

/-- **The decoder prints what is sent**, for all bytes with any pause before them, if and only if
the transmitter is in tolerance. -/
theorem decodes_iff {c : ℕ} (hc : 0 < c) (len : ℕ → ℕ) :
    (∀ pause bytes, run c (idle []) (List.replicate pause true ++ bytes.flatMap (frame len)) =
      idle bytes) ↔ InTolerance c len := by
  constructor
  · intro h
    refine inTolerance_of_run hc fun byte => ?_
    have hone := h 0 [byte]
    rwa [List.flatMap_singleton] at hone
  · intro h pause bytes
    have hall : ∀ f ∈ bytes.map fun byte => (byte, len), InTolerance c f.2 := by
      intro f hf
      obtain ⟨byte, -, rfl⟩ := List.mem_map.mp hf
      exact h
    have hchars : (bytes.map fun byte => (byte, len)).flatMap (fun f => frame f.2 f.1) =
        bytes.flatMap (frame len) := List.flatMap_map _ _ _
    rw [run_append, run_high, ← hchars, run_frames hc hall, List.map_map]
    exact congrArg idle (List.map_id bytes)

/-- 115200 baud at 25 MHz, with a transmitter that is as fast as the decoder. -/
theorem decodes_iff_115200 :
    ((∀ pause bytes, run 217 (idle []) (List.replicate pause true ++
        bytes.flatMap (frame fun _ => 217)) = idle bytes) ↔ InTolerance 217 fun _ => 217) ∧
      InTolerance 217 fun _ => 217 :=
  ⟨decodes_iff (by decide) _, (inTolerance_steady (by decide)).mpr (by decide)⟩

end UartDecode

end KwsSoc.Sim
