import KwsSoc.Sim.FlashSim

/-! # Commands and reads at the simulated flash

What `call` makes of the clocks of one selection when nothing is ever written: a command byte on
one line (`Commanded`), a quad read with or without its command (`Reading`), and the reset command
on a flash that waits for the address of a continuous read (`Misread`). A call is a rising edge, a
falling edge or no edge (`call_no_fall`, `call_falling`), and chip select released ends any of them
(`call_released`). -/

namespace KwsSoc.Sim

open Xip

namespace FlashSim

variable {mem : BitVec 32 → BitVec 8} {f : FlashSim} {p : SpiPins} {a : BitVec 24} {j k : ℕ}

/-! ## Between selections -/

/-- The contents are `mem`, no cycle is under way and the flash is awake. -/
structure Steady (mem : BitVec 32 → BitVec 8) (f : FlashSim) : Prop where
  mem : f.mem = mem
  sreg : f.sreg = 0x01c
  writeCount : f.writeCount = 0

/-- The next selection begins with the address of a continuous read. -/
structure Warm (f : FlashSim) : Prop where
  mode : f.mode = .qspi
  state : f.state = .quadReadIdle
  continuous : f.continuous = true

/-- The next selection begins with a command. -/
structure Cold (f : FlashSim) : Prop where
  mode : f.mode = .spi
  state : f.state = .idle ∨ f.state = .quadReadCmd ∨ f.state = .quadRead
  continuous : f.continuous = false

/-- Chip select has been released. -/
structure Fresh (f : FlashSim) : Prop where
  lastSck : f.lastSck = true
  ireg : f.ireg = 0
  count : f.count = 0

theorem Steady.tick (h : Steady mem f) : f.tick = f := by rw [FlashSim.tick, if_pos h.writeCount]

theorem Steady.ready (h : Steady mem f) : f.ready = true := by
  rw [FlashSim.ready, h.sreg]
  rfl

/-- Steady flashes differ in the other fields. -/
theorem Steady.of_eq {g : FlashSim} (h : Steady mem f) (hm : g.mem = f.mem) (hs : g.sreg = f.sreg)
    (hw : g.writeCount = f.writeCount) : Steady mem g :=
  ⟨hm.trans h.mem, hs.trans h.sreg, hw.trans h.writeCount⟩

/-! ## The three kinds of a call -/

theorem call_released (h : Steady mem f) (hcs : p.csn = true) :
    f.call p = some (f.deselect, p.spiDo) := by
  rw [call, if_pos hcs, h.tick]

/-- Only the level of SCK is noted. -/
theorem call_no_fall (h : Steady mem f) (hcs : p.csn = false)
    (hsck : f.lastSck = false ∨ p.sck = f.lastSck) :
    f.call p = some ({ f with lastSck := p.sck }, f.out p.spiDo) := by
  rw [call, if_neg (by simp [hcs]), if_pos (by rcases hsck with h | h <;> simp [h]), h.tick]

/-- The pins are shifted in. -/
theorem call_falling (h : Steady mem f) (hcs : p.csn = false) (hlast : f.lastSck = true)
    (hsck : p.sck = false) :
    f.call p =
      ((f.shift p.spiDo).process).map fun g => ({ g with lastSck := false }, g.out p.spiDo) := by
  rw [call, if_neg (by simp [hcs]), if_neg (by simp [hlast, hsck]), h.tick, hsck]

/-- A call without an edge changes nothing. -/
theorem call_still (h : Steady mem f) (hcs : p.csn = false) (hsck : p.sck = f.lastSck) :
    f.call p = some (f, f.out p.spiDo) := by
  rw [call_no_fall h hcs (.inr hsck), hsck]

/-! ## The end of a selection -/

/-- States of a flash that has only been read. -/
def Readable (f : FlashSim) : Prop :=
  f.state = .idle ∨ f.state = .quadReadIdle ∨ f.state = .quadReadCmd ∨ f.state = .quadRead

theorem Warm.readable (h : Warm f) : Readable f := .inr (.inl h.state)

theorem Cold.readable (h : Cold f) : Readable f := h.state.imp_right .inr

theorem Readable.fresh_deselect (h : Readable f) : Fresh f.deselect := by
  rcases h with h | h | h | h <;> simp only [deselect, finish, h]
  · exact ⟨rfl, rfl, rfl⟩
  · exact ⟨rfl, rfl, rfl⟩
  all_goals split <;> exact ⟨rfl, rfl, rfl⟩

theorem Steady.deselect (h : Steady mem f) (hs : Readable f) : Steady mem f.deselect := by
  rcases hs with hs | hs | hs | hs <;> simp only [FlashSim.deselect, finish, hs]
  · exact h.of_eq rfl rfl rfl
  · exact h.of_eq rfl rfl rfl
  all_goals split <;> exact h.of_eq rfl rfl rfl

/-- A read ends as its mode byte says. -/
theorem deselect_read (h : f.state = .quadReadCmd ∨ f.state = .quadRead) :
    if f.continuous then f.mode = .qspi → Warm f.deselect else Cold f.deselect := by
  cases hc : f.continuous with
  | true =>
    have hc' := hc
    rw [continuous] at hc'
    intro hm
    rcases h with h | h <;> simp only [deselect, finish, h, continuous, hc', if_true] <;>
      exact ⟨hm, rfl, hc⟩
  | false =>
    have hc' := hc
    rw [continuous] at hc'
    rw [if_neg Bool.false_ne_true]
    rcases h with h | h <;>
      simp only [deselect, finish, h, continuous, hc', Bool.false_eq_true, if_false]
    · exact ⟨rfl, .inr (.inl rfl), hc⟩
    · exact ⟨rfl, .inr (.inr rfl), hc⟩

theorem Warm.deselect (h : Warm f) : Warm f.deselect := by
  simp only [FlashSim.deselect, finish, h.state]
  exact ⟨h.mode, rfl, h.continuous⟩

theorem Cold.deselect (h : Cold f) : Cold f.deselect := by
  rcases h.state with hs | hs
  · simp only [FlashSim.deselect, finish, hs]
    exact ⟨h.mode, .inl rfl, h.continuous⟩
  · have hread := deselect_read hs
    rw [h.continuous] at hread
    exact hread

/-! ## A command -/

/-- `k` bits of the command `b` are in. -/
structure Commanded (b : BitVec 8) (k : ℕ) (f : FlashSim) : Prop where
  cold : Cold f
  count : f.count = BitVec.ofNat 32 k
  ireg : f.ireg = (b >>> (8 - k)).setWidth 32

/-- What stands on the data lines in clock `k` of a command. -/
def commandBit (b : BitVec 8) (k : ℕ) : BitVec 4 := (BitVec.ofBool (b.getLsbD (7 - k))).setWidth 4

theorem Cold.commanded (h : Cold f) (hf : Fresh f) (b : BitVec 8) : Commanded b 0 f := by
  refine ⟨h, hf.count, ?_⟩
  rw [hf.ireg]
  apply BitVec.eq_of_toNat_eq
  have hb := b.isLt
  simp [BitVec.toNat_ushiftRight, Nat.shiftRight_eq_div_pow]
  omega

/-- One more bit of a command. -/
theorem command_shift (b : BitVec 8) (hk : k < 8) :
    (b >>> (8 - k)).setWidth 32 <<< 1 ||| (commandBit b k &&& 0x1).setWidth 32 =
      (b >>> (7 - k)).setWidth 32 := by
  apply BitVec.eq_of_getLsbD_eq
  intro i hi
  have hsum : 8 - k = 7 - k + 1 := by omega
  simp only [commandBit, BitVec.getLsbD_or, BitVec.getLsbD_shiftLeft, BitVec.getLsbD_setWidth,
    BitVec.getLsbD_ushiftRight, BitVec.getLsbD_and, hsum]
  cases i with
  | zero => simp
  | succ i =>
    have hi' : i < 32 := Nat.lt_of_succ_lt hi
    simp [hi, hi', show 7 - k + 1 + i = 7 - k + (i + 1) by omega]

theorem shift_spi (hm : f.mode = .spi) (d : BitVec 4) :
    f.shift d =
      { f with
        ireg := f.ireg <<< 1 ||| (d &&& 0x1).setWidth 32, count := f.count + 1
        oreg := f.oreg <<< 1 } := by
  rw [shift, hm]

theorem shift_qspi (hm : f.mode = .qspi) (d : BitVec 4) :
    f.shift d =
      { f with
        ireg := f.ireg <<< 4 ||| d.setWidth 32, count := f.count + 4, oreg := f.oreg <<< 4 } := by
  rw [shift, hm]

/-- Counting on. -/
theorem count_add (n c : ℕ) : BitVec.ofNat 32 n + BitVec.ofNat 32 c = BitVec.ofNat 32 (n + c) :=
  (BitVec.ofNat_add n c).symm

/-- The flash after the next bit of a command, which is its last one for `k = 7`. -/
theorem Commanded.shift {b : BitVec 8} (h : Commanded b k f) (hk : k < 8) :
    Commanded b (k + 1) (f.shift (commandBit b k)) := by
  rw [shift_spi h.cold.mode]
  refine ⟨⟨h.cold.mode, h.cold.state, h.cold.continuous⟩, ?_, ?_⟩
  · simp only [h.count]
    exact count_add k 1
  · simp only [h.ireg]
    rw [command_shift b hk, show 8 - (k + 1) = 7 - k by omega]

/-- Up to its last bit a command does nothing. -/
theorem Commanded.process_lt {b : BitVec 8} (h : Commanded b k f) (hk0 : 0 < k) (hk : k < 8) :
    f.process = some f := by
  have hidle : f.state ≠ .quadReadIdle ∧ f.state ≠ .dualReadIdle := by
    rcases h.cold.state with hs | hs | hs <;> simp [hs]
  rw [process, if_neg hidle.1, if_neg hidle.2, h.count]
  have hlt : BitVec.ofNat 32 k ≠ 8 ∧ BitVec.ofNat 32 k &&& 7 ≠ 0 := by
    clear h hidle
    interval_cases k <;> decide
  rw [if_neg hlt.1, if_neg (fun hand => hlt.2 hand.1)]

/-- Its last bit executes it. -/
theorem Commanded.process_eight {b : BitVec 8} (h : Commanded b 8 f) :
    f.process = some (f.qoreg 0x0a5).command := by
  have hidle : f.state ≠ .quadReadIdle ∧ f.state ≠ .dualReadIdle := by
    rcases h.cold.state with hs | hs | hs <;> simp [hs]
  rw [process, if_neg hidle.1, if_neg hidle.2, h.count]
  rfl

/-- The commands that the controller sends, on an awake flash: 66 and 99 are ignored. -/
theorem Commanded.command {b : BitVec 8} (h : Commanded b 8 f) (hs : Steady mem f)
    (hb : b = 0x66 ∨ b = 0x99 ∨ b = 0xEB) :
    (f.qoreg 0x0a5).command =
      if b = 0xEB then { f.qoreg 0x0a5 with state := .quadReadCmd, mode := .qspi }
      else f.qoreg 0x0a5 := by
  have hireg : f.ireg.setWidth 8 = b := by
    rw [h.ireg]
    simp
  rw [FlashSim.command]
  simp only [qoreg, hireg, hs.sreg]
  rcases hb with rfl | rfl | rfl <;> rfl

/-! ## A read -/

/-- Nibble `k` of the contents from address `a` on, high nibble first. -/
def nibbleAt (mem : BitVec 32 → BitVec 8) (a : BitVec 24) (k : ℕ) : BitVec 4 :=
  (mem (a.setWidth 32 + BitVec.ofNat 32 (k / 2))).extractLsb' (if k % 2 = 0 then 4 else 0) 4

/-- What clock `j` of a read does after its nibble is shifted in: clock 6 completes the address,
clock 8 the mode byte, and from clock 12 on every other clock fetches a byte. -/
def readClock (first : Bool) (j : ℕ) (f : FlashSim) : FlashSim :=
  if first = false ∧ j ≤ 6 then
    if j = 6 then { f with addr := f.ireg &&& memmask, state := .quadRead, oreg := 0 }
    else { f with oreg := 0 }
  else if j % 2 = 1 then f
  else if j = 6 then { f.qoreg 0 with addr := f.ireg &&& memmask }
  else if j = 8 then { f.qoreg 0 with modeByte := f.ireg &&& 0x0ff }
  else if 12 ≤ j then (f.qoreg 0).readNext
  else { f with oreg := 0 }

/-- Bits a read has counted by clock `j`; the command takes 8. -/
def readCount (first : Bool) (j : ℕ) : ℕ := (if first then 8 else 0) + 4 * j

/-- The state of a read after clock `j`. -/
def readState (first : Bool) (j : ℕ) : QspifState :=
  if first then .quadReadCmd else if j < 6 then .quadReadIdle else .quadRead

theorem readable_of_readState {first : Bool} (h : f.state = readState first j) : Readable f := by
  rw [readState] at h
  rw [Readable, h]
  split_ifs <;> simp

/-- Tests of the counter. -/
theorem count_tests {n : ℕ} (hn : n < 2 ^ 32) (hc : f.count = BitVec.ofNat 32 n) :
    (∀ c < 2 ^ 32, f.count = BitVec.ofNat 32 c ↔ n = c) ∧
      (∀ c < 2 ^ 32, BitVec.ofNat 32 c ≤ f.count ↔ c ≤ n) ∧ (f.count &&& 7 = 0 ↔ n % 8 = 0) := by
  refine ⟨fun c h => ?_, fun c h => ?_, ?_⟩
  · rw [hc, ← BitVec.toNat_inj, BitVec.toNat_ofNat, BitVec.toNat_ofNat, Nat.mod_eq_of_lt hn,
      Nat.mod_eq_of_lt h]
  · rw [hc, BitVec.le_def, BitVec.toNat_ofNat, BitVec.toNat_ofNat, Nat.mod_eq_of_lt hn,
      Nat.mod_eq_of_lt h]
  · rw [hc, ← BitVec.toNat_inj, BitVec.toNat_and, BitVec.toNat_ofNat, Nat.mod_eq_of_lt hn]
    change n &&& (2 ^ 3 - 1) = 0 ↔ _
    rw [Nat.and_two_pow_sub_one_eq_mod]

/-- **A clock of a read**, on an awake flash. -/
theorem process_read (first : Bool) (hs : Steady mem f) (hm : f.mode = .qspi) (hj : j < 2 ^ 16)
    (hst : f.state = readState first j)
    (hc : f.count = BitVec.ofNat 32 (readCount first (j + 1))) :
    f.process = some (readClock first (j + 1) f) := by
  have hn : readCount first (j + 1) < 2 ^ 32 := by
    rw [readCount]
    split <;> omega
  obtain ⟨heq, hle, hmod⟩ := count_tests hn hc
  have h0 : f.count = 0#32 ↔ _ := heq 0 (by omega)
  have h8 : f.count = 8#32 ↔ _ := heq 8 (by omega)
  have h24 : f.count = 24#32 ↔ _ := heq 24 (by omega)
  have h32 : f.count = 32#32 ↔ _ := heq 32 (by omega)
  have h40 : f.count = 40#32 ↔ _ := heq 40 (by omega)
  have h48 : 48#32 ≤ f.count ↔ _ := hle 48 (by omega)
  have h56 : 56#32 ≤ f.count ↔ _ := hle 56 (by omega)
  have hbyte : f.count &&& 7#32 = 0#32 ↔ _ := hmod
  have hready : f.sreg &&& QSPIF_WIP_FLAG = 0 := beq_iff_eq.mp hs.ready
  have hawake : f.sreg &&& QSPIF_DEEP_POWER_DOWN_FLAG = 0 := by
    rw [hs.sreg]
    rfl
  rw [readState] at hst
  cases first with
  | true =>
    rw [if_pos rfl] at hst
    simp only [readCount, if_true] at *
    simp only [process, byte, qoreg, hst, ready, hready, h8, h32, h40, h56, hbyte, h0, ne_eq,
      beq_self_eq_true, and_true, reduceCtorEq, if_false, not_false_eq_true, readClock, Bool.true_eq_false,
      false_and, BitVec.ofNat_eq_ofNat]
    split_ifs <;> first | omega | rfl
  | false =>
    simp only [readCount, Bool.false_eq_true, if_false, Nat.zero_add] at *
    by_cases h6 : j < 6
    · rw [if_pos h6] at hst
      simp only [process, continueRead, hst, if_true, hawake, hm, h24, readClock, true_and,
        BitVec.ofNat_eq_ofNat]
      split_ifs <;> first | omega | rfl
    · rw [if_neg h6] at hst
      simp only [process, byte, qoreg, hst, ready, hready, h8, h32, h48, hbyte, h0, ne_eq,
        beq_self_eq_true, and_true, reduceCtorEq, if_false, not_false_eq_true, readClock, true_and,
        BitVec.ofNat_eq_ofNat]
      split_ifs <;> first | omega | rfl

/-! ### Bits of the shift registers -/

theorem extract_shift (x : BitVec 32) {n w : ℕ} (hn : n + w ≤ 28) :
    (x <<< 4).extractLsb' (n + 4) w = x.extractLsb' n w := by
  apply BitVec.eq_of_getLsbD_eq
  intro i hi
  have h4 : n + 4 + i < 32 := by omega
  have hge : ¬ n + 4 + i < 4 := by omega
  simp only [BitVec.getLsbD_extractLsb', BitVec.getLsbD_shiftLeft, hi, h4, hge,
    show n + 4 + i - 4 = n + i by omega]
  simp

/-- `QOREG` sets the low byte. -/
theorem extract_qoreg_low (x y : BitVec 32) :
    (x &&& ~~~0x0ff ||| y &&& 0x0ff).extractLsb' 0 8 = y.setWidth 8 := by
  apply BitVec.eq_of_getLsbD_eq
  intro i hi
  interval_cases i <;> simp

/-- It keeps what is above. -/
theorem extract_qoreg_high (x y : BitVec 32) :
    (x &&& ~~~0x0ff ||| y &&& 0x0ff).extractLsb' 8 4 = x.extractLsb' 8 4 := by
  apply BitVec.eq_of_getLsbD_eq
  intro i hi
  interval_cases i <;> simp

/-- The high nibble of the mode byte came in one clock before the low one. -/
theorem mode_byte {x : BitVec 32} (h : x.setWidth 4 = 0xA#4) (d : BitVec 4) :
    (x <<< 4 ||| d.setWidth 32) &&& 0x0ff &&& 0x0f0 = 0x0a0 := by
  have hbit : ∀ k < 4, x.getLsbD k = (0xA#4).getLsbD k := by
    intro k hk
    rw [← h]
    simp [hk]
  have hrest : ∀ k : Fin 32, 8 ≤ k.val →
      (0x0f0#32).getLsbD k = false ∧ (0x0a0#32).getLsbD k = false := by decide
  apply BitVec.eq_of_getLsbD_eq
  intro i hi
  by_cases h8 : i < 8
  · have h0 : x[0] = false := hbit 0 (by omega)
    have h1 : x[1] = true := hbit 1 (by omega)
    have h2 : x[2] = false := hbit 2 (by omega)
    have h3 : x[3] = true := hbit 3 (by omega)
    interval_cases i <;> simp [h0, h1, h2, h3]
  · obtain ⟨hf, ha⟩ := hrest ⟨i, hi⟩ (Nat.le_of_not_lt h8)
    refine Eq.trans ?_ ha.symm
    rw [BitVec.getLsbD_and]
    exact (congrArg _ hf).trans (Bool.and_false _)

/-- The input register after a nibble. -/
theorem toNat_shift_in (x : BitVec 32) (d : BitVec 4) :
    (x <<< 4 ||| d.setWidth 32).toNat = x.toNat * 16 % 2 ^ 32 + d.toNat := by
  have hd := d.isLt
  have hx := x.isLt
  have hsplit : x.toNat * 16 % 2 ^ 32 = 2 ^ 4 * (x.toNat % 2 ^ 28) := by omega
  rw [BitVec.toNat_or, BitVec.toNat_shiftLeft, Nat.shiftLeft_eq, BitVec.toNat_setWidth,
    Nat.mod_eq_of_lt (by omega : d.toNat < 2 ^ 32), show (2 : ℕ) ^ 4 = 16 by rfl, hsplit,
    ← Nat.two_pow_add_eq_or_of_lt hd]

/-! ### Clock by clock -/

/-- What stands on the data lines in clock `j` of a read, up to the mode byte. -/
def readLine (a : BitVec 24) (j : ℕ) : BitVec 4 :=
  if j < 6 then a.extractLsb' (20 - 4 * j) 4 else if j = 6 then 0xA else 0

/-- **A read of address `a` after `j` clocks.** In the input register are the nibbles of the
address, then those of the mode byte; in the output register are the bytes under way, and above them
the nibble that the flash drives. -/
structure Reading (a : BitVec 24) (first : Bool) (j : ℕ) (f : FlashSim) : Prop where
  mode : f.mode = .qspi
  state : f.state = readState first j
  count : f.count = BitVec.ofNat 32 (readCount first j)
  ireg : j ≤ 6 → f.ireg.toNat % 16 ^ j = a.toNat / 16 ^ (6 - j)
  modeNibble : j = 7 → f.ireg.setWidth 4 = 0xA#4
  continuous : f.continuous = (!first || decide (8 ≤ j))
  addr : 6 ≤ j → f.addr = a.setWidth 32 + BitVec.ofNat 32 ((j - 10) / 2)
  empty : 10 ≤ j → j < 12 → f.oreg = 0
  byte : 12 ≤ j → f.oreg.extractLsb' (4 * (j % 2)) 8 =
    f.mem (a.setWidth 32 + BitVec.ofNat 32 ((j - 12) / 2))
  nibble : 13 ≤ j → f.oreg.extractLsb' 8 4 = nibbleAt f.mem a (j - 13)

/-- A continuous read begins with a selection. -/
theorem Warm.reading (h : Warm f) (hf : Fresh f) (a : BitVec 24) : Reading a false 0 f := by
  refine ⟨h.mode, h.state, hf.count, fun _ => ?_, by omega, h.continuous, by omega, by omega,
    by omega, by omega⟩
  rw [Nat.pow_zero, Nat.mod_one]
  exact (Nat.div_eq_of_lt a.isLt).symm

section ReadClock

variable (first : Bool) (g : FlashSim)

/-- Fields that a clock of a read keeps. -/
theorem readClock_keeps (j : ℕ) :
    (readClock first j g).mode = g.mode ∧ (readClock first j g).count = g.count ∧
      (readClock first j g).ireg = g.ireg ∧ (readClock first j g).mem = g.mem ∧
      (readClock first j g).sreg = g.sreg ∧ (readClock first j g).writeCount = g.writeCount := by
  rw [readClock]
  split_ifs <;> exact ⟨rfl, rfl, rfl, rfl, rfl, rfl⟩

theorem readClock_state (hj : g.state = readState first j) :
    (readClock first (j + 1) g).state = readState first (j + 1) := by
  rw [readState] at *
  rw [readClock]
  cases first with
  | true =>
    simp only [Bool.true_eq_false, false_and, if_false, if_true] at *
    split_ifs <;> exact hj
  | false =>
    simp only [true_and, Bool.false_eq_true, if_false] at *
    split_ifs at * <;> first | omega | rfl | exact hj

theorem readClock_modeByte (hj : j ≠ 8) : (readClock first j g).modeByte = g.modeByte := by
  rw [readClock]
  split_ifs <;> rfl

theorem readClock_addr (hj : 6 ≤ j) :
    (readClock first j g).addr =
      if j = 6 then g.ireg &&& memmask else if j % 2 = 0 ∧ 12 ≤ j then g.addr + 1 else g.addr := by
  rw [readClock]
  split_ifs <;> first | omega | rfl

theorem readClock_oreg (hj : 9 ≤ j) :
    (readClock first j g).oreg =
      if j % 2 = 1 then g.oreg
      else if 12 ≤ j then ((g.qoreg 0).qoreg ((g.mem g.addr).setWidth 32)).oreg else 0 := by
  rw [readClock]
  split_ifs <;> first | omega | rfl

end ReadClock

/-- The next nibble of the address. -/
theorem toNat_readLine (hj : j < 6) : (readLine a j).toNat = a.toNat / 16 ^ (5 - j) % 16 := by
  rw [readLine, if_pos hj, BitVec.extractLsb'_toNat, Nat.shiftRight_eq_div_pow,
    show 20 - 4 * j = 4 * (5 - j) by omega, pow_mul]
  rfl

/-- What reaches the output register for the next byte. -/
theorem extract_readNext (g : FlashSim) :
    ((g.qoreg 0).qoreg ((g.mem g.addr).setWidth 32)).oreg.extractLsb' 0 8 = g.mem g.addr ∧
      ((g.qoreg 0).qoreg ((g.mem g.addr).setWidth 32)).oreg.extractLsb' 8 4 =
        g.oreg.extractLsb' 8 4 := by
  refine ⟨?_, ?_⟩
  · rw [qoreg, extract_qoreg_low]
    simp
  · rw [qoreg, extract_qoreg_high, qoreg, extract_qoreg_high]

/-- The high and the low nibble of a byte. -/
theorem extract_nibble (x : BitVec 32) (n : ℕ) :
    (x.extractLsb' n 8).extractLsb' 0 4 = x.extractLsb' n 4 ∧
      (x.extractLsb' n 8).extractLsb' 4 4 = x.extractLsb' (n + 4) 4 := by
  constructor
  · ext i hi
    simp [show i < 8 by omega]
  · ext i hi
    simp [show 4 + i < 8 by omega, Nat.add_assoc]

namespace Reading

variable {first : Bool} {d : BitVec 4}

/-- The address nibbles are collected. -/
theorem ireg_clock (h : Reading a first j f) (hj : j < 6) (hd : d = readLine a j) :
    (f.shift d).ireg.toNat % 16 ^ (j + 1) = a.toNat / 16 ^ (5 - j) := by
  have hf := h.ireg (Nat.le_of_lt hj)
  have hdn := toNat_readLine (a := a) hj
  rw [← hd] at hdn
  rw [shift_qspi h.mode]
  simp only [toNat_shift_in]
  have ha := a.isLt
  clear h hd
  -- one case for each nibble
  interval_cases j <;> norm_num at hf hdn ⊢ <;> omega

/-- The mode byte is complete with clock 8. -/
theorem continuous_clock (h : Reading a first j f) :
    (readClock first (j + 1) (f.shift d)).continuous = (!first || decide (8 ≤ j + 1)) := by
  have hshift := shift_qspi h.mode d
  by_cases h8 : j + 1 = 8
  · have hmb : (readClock first (j + 1) (f.shift d)).modeByte =
        (f.ireg <<< 4 ||| d.setWidth 32) &&& 0x0ff := by
      rw [h8, hshift]
      cases first <;> rfl
    rw [FlashSim.continuous, hmb, mode_byte (h.modeNibble (by omega)), decide_eq_true (by omega),
      Bool.or_true]
    rfl
  · have hcont := h.continuous
    have hlater : decide (8 ≤ j) = decide (8 ≤ j + 1) := decide_eq_decide.mpr (by omega)
    rw [FlashSim.continuous] at hcont ⊢
    rw [readClock_modeByte first _ h8, hshift, ← hlater]
    exact hcont

/-- The address is taken with clock 6, and counted up with every byte. -/
theorem addr_clock (h : Reading a first j f) (hj : 6 ≤ j + 1) (hd : j < 8 → d = readLine a j) :
    (readClock first (j + 1) (f.shift d)).addr =
      a.setWidth 32 + BitVec.ofNat 32 ((j + 1 - 10) / 2) := by
  rw [readClock_addr _ _ hj]
  split_ifs with h6 hnext
  · have hr := h.ireg_clock (by omega) (hd (by omega))
    have ha := a.isLt
    have hmask : memmask.toNat = 2 ^ 24 - 1 := rfl
    have hj5 : j = 5 := by omega
    subst hj5
    apply BitVec.eq_of_toNat_eq
    rw [BitVec.toNat_and, hmask, Nat.and_two_pow_sub_one_eq_mod]
    simp only [BitVec.toNat_add, BitVec.toNat_setWidth, BitVec.toNat_ofNat]
    norm_num at hr ⊢
    omega
  · rw [shift_qspi h.mode]
    simp only
    rw [h.addr (by omega), BitVec.add_assoc]
    congr 1
    exact (count_add _ 1).trans (congrArg _ (by omega))
  · rw [shift_qspi h.mode]
    simp only
    rw [h.addr (by omega)]
    congr 2
    omega

/-- From clock 12 on a byte enters the output register with every even clock. -/
theorem byte_clock (h : Reading a first j f) (hj : 12 ≤ j + 1) :
    (readClock first (j + 1) (f.shift d)).oreg.extractLsb' (4 * ((j + 1) % 2)) 8 =
      f.mem (a.setWidth 32 + BitVec.ofNat 32 ((j + 1 - 12) / 2)) := by
  rw [readClock_oreg _ _ (by omega), shift_qspi h.mode]
  by_cases hodd : (j + 1) % 2 = 1
  · have hb := h.byte (by omega)
    rw [show j % 2 = 0 by omega] at hb
    rw [if_pos hodd, hodd, show 4 * 1 = 0 + 4 by rfl, extract_shift _ (by omega),
      show (j + 1 - 12) / 2 = (j - 12) / 2 by omega]
    exact hb
  · rw [if_neg hodd, if_pos hj, show (j + 1) % 2 = 0 by omega]
    refine (extract_readNext _).1.trans ?_
    simp only
    rw [h.addr (by omega), show (j + 1 - 12) / 2 = (j - 10) / 2 by omega]

/-- Its two nibbles follow. -/
theorem nibble_clock (h : Reading a first j f) (hj : 13 ≤ j + 1) :
    (readClock first (j + 1) (f.shift d)).oreg.extractLsb' 8 4 = nibbleAt f.mem a (j + 1 - 13) := by
  have hb := h.byte (by omega)
  have hhalf := extract_nibble f.oreg (4 * (j % 2))
  rw [readClock_oreg _ _ (by omega), shift_qspi h.mode, show j + 1 - 13 = j - 12 by omega,
    nibbleAt, ← hb]
  by_cases hodd : (j + 1) % 2 = 1
  · rw [if_pos hodd, if_pos (by omega), hhalf.2, show j % 2 = 0 by omega]
    exact extract_shift f.oreg (by omega)
  · rw [if_neg hodd, if_pos (by omega), if_neg (by omega), hhalf.1, show j % 2 = 1 by omega]
    refine (extract_readNext _).2.trans ?_
    exact extract_shift f.oreg (by omega)

/-- **Step lemma for a read**: one clock. -/
theorem clock (h : Reading a first j f) (hd : j < 8 → d = readLine a j) :
    Reading a first (j + 1) (readClock first (j + 1) (f.shift d)) := by
  have hshift := shift_qspi h.mode d
  obtain ⟨hmode, hcount, hireg, hmem, -, -⟩ := readClock_keeps first (f.shift d) (j + 1)
  have hcontents : (readClock first (j + 1) (f.shift d)).mem = f.mem := by rw [hmem, hshift]
  refine ⟨?_, ?_, ?_, fun h6 => ?_, fun h7 => ?_, h.continuous_clock, fun h6 => h.addr_clock h6 hd,
    fun h10 h12 => ?_, fun h12 => ?_, fun h13 => ?_⟩
  · rw [hmode, hshift]
    exact h.mode
  · refine readClock_state first _ ?_
    rw [hshift]
    exact h.state
  · rw [hcount, hshift]
    simp only [h.count]
    exact (count_add _ 4).trans (congrArg _ (by rw [readCount, readCount]; omega))
  · rw [hireg, h.ireg_clock (by omega) (hd (by omega)), show 6 - (j + 1) = 5 - j by omega]
  · have hdn : d.toNat = 10 := by
      rw [hd (by omega), readLine, if_neg (by omega), if_pos (by omega)]
      rfl
    rw [hireg, hshift]
    apply BitVec.eq_of_toNat_eq
    simp only [BitVec.toNat_setWidth, toNat_shift_in, hdn, BitVec.toNat_ofNat]
    omega
  · rw [readClock_oreg _ _ (by omega)]
    split_ifs with hodd hge
    · rw [hshift]
      simp only
      rw [h.empty (by omega) (by omega)]
      rfl
    · omega
    · rfl
  · rw [hcontents]
    exact h.byte_clock h12
  · rw [hcontents]
    exact h.nibble_clock h13

end Reading

/-! ## A command on a flash that waits for an address -/

/-- `k` bits of the reset command 66 are in, and each was taken for a nibble. -/
structure Misread (k : ℕ) (f : FlashSim) : Prop where
  mode : f.mode = .qspi
  state : f.state = readState false k
  count : f.count = BitVec.ofNat 32 (readCount false k)
  ireg : f.ireg = 0x01100110#32 >>> (4 * (8 - k))
  continuous : f.continuous = decide (k < 8)

theorem Warm.misread (h : Warm f) (hf : Fresh f) : Misread 0 f :=
  ⟨h.mode, h.state, hf.count, by rw [hf.ireg]; rfl, h.continuous⟩

/-- The command as nibbles. -/
theorem misread_shift (hk : k < 8) :
    (0x01100110#32 >>> (4 * (8 - k))) <<< 4 ||| (commandBit 0x66 k).setWidth 32 =
      0x01100110#32 >>> (4 * (8 - (k + 1))) := by
  interval_cases k <;> rfl

/-- **Step lemma for a misread command.** After its eighth bit the flash has a mode byte of `10`,
which ends the continuous reads. -/
theorem Misread.clock (h : Misread k f) (hk : k < 8) :
    Misread (k + 1) (readClock false (k + 1) (f.shift (commandBit 0x66 k))) := by
  have hshift := shift_qspi h.mode (commandBit 0x66 k)
  obtain ⟨hmode, hcount, hireg, -, -, -⟩ :=
    readClock_keeps false (f.shift (commandBit 0x66 k)) (k + 1)
  have hin : (f.shift (commandBit 0x66 k)).ireg = 0x01100110#32 >>> (4 * (8 - (k + 1))) := by
    rw [hshift]
    simp only [h.ireg]
    exact misread_shift hk
  refine ⟨?_, ?_, ?_, ?_, ?_⟩
  · rw [hmode, hshift]
    exact h.mode
  · refine readClock_state false _ ?_
    rw [hshift]
    exact h.state
  · rw [hcount, hshift]
    simp only [h.count]
    exact (count_add _ 4).trans (congrArg _ (by rw [readCount, readCount]; omega))
  · rw [hireg, hin]
  · by_cases h8 : k = 7
    · subst h8
      have hmb : (readClock false (7 + 1) (f.shift (commandBit 0x66 7))).modeByte =
          (f.shift (commandBit 0x66 7)).ireg &&& 0x0ff := rfl
      rw [FlashSim.continuous, hmb, hin]
      rfl
    · have hcont := h.continuous
      have hlater : decide (k < 8) = decide (k + 1 < 8) := decide_eq_decide.mpr (by omega)
      rw [FlashSim.continuous] at hcont ⊢
      rw [readClock_modeByte false _ (by omega), hshift, ← hlater]
      exact hcont

/-! ## Calls of a selection -/

/-- A falling edge at which the shifted-in flash goes to `g`. -/
theorem call_of_process {g : FlashSim} (hs : Steady mem f) (hcs : p.csn = false)
    (hlast : f.lastSck = true) (hsck : p.sck = false)
    (hg : (f.shift p.spiDo).process = some g) :
    f.call p = some ({ g with lastSck := false }, g.out p.spiDo) := by
  rw [call_falling hs hcs hlast hsck, hg]
  rfl

theorem Steady.shift (hs : Steady mem f) (d : BitVec 4) : Steady mem (f.shift d) := by
  rw [FlashSim.shift]
  split <;> exact hs.of_eq rfl rfl rfl

theorem Steady.readClock (hs : Steady mem f) (first : Bool) (j : ℕ) :
    Steady mem (f.readClock first j) := by
  obtain ⟨-, -, -, hm, hr, hw⟩ := readClock_keeps first f j
  exact hs.of_eq hm hr hw

/-- **A falling edge of a read.** -/
theorem Reading.call {first : Bool} (h : Reading a first j f) (hs : Steady mem f)
    (hj : j < 2 ^ 16) (hcs : p.csn = false) (hlast : f.lastSck = true) (hsck : p.sck = false)
    (hd : j < 8 → p.spiDo = readLine a j) :
    ∃ g, f.call p = some (g, g.out p.spiDo) ∧ Steady mem g ∧ g.lastSck = false ∧
      Reading a first (j + 1) g := by
  have hshift := shift_qspi h.mode p.spiDo
  have hclock := h.clock hd
  have hproc := process_read first (hs.shift p.spiDo)
    (by rw [hshift]; exact h.mode) hj (by rw [hshift]; exact h.state)
    (by rw [hshift]; simp only [h.count]
        exact (count_add _ 4).trans (congrArg _ (by rw [readCount, readCount]; omega)))
  refine ⟨_, call_of_process hs hcs hlast hsck hproc, ?_, rfl, ?_⟩
  · exact ((hs.shift _).readClock _ _).of_eq rfl rfl rfl
  · exact ⟨hclock.mode, hclock.state, hclock.count, hclock.ireg, hclock.modeNibble,
      hclock.continuous, hclock.addr, hclock.empty, hclock.byte, hclock.nibble⟩

/-- A falling edge of a misread command. -/
theorem Misread.call (h : Misread k f) (hs : Steady mem f) (hk : k < 8) (hcs : p.csn = false)
    (hlast : f.lastSck = true) (hsck : p.sck = false) (hd : p.spiDo = commandBit 0x66 k) :
    ∃ g, f.call p = some (g, g.out p.spiDo) ∧ Steady mem g ∧ g.lastSck = false ∧
      Misread (k + 1) g := by
  have hshift := shift_qspi h.mode p.spiDo
  have hclock := h.clock hk
  rw [← hd] at hclock
  have hproc := process_read (j := k) false (hs.shift p.spiDo)
    (by rw [hshift]; exact h.mode) (by omega) (by rw [hshift]; exact h.state)
    (by rw [hshift]; simp only [h.count]
        exact (count_add _ 4).trans (congrArg _ (by rw [readCount, readCount]; omega)))
  refine ⟨_, call_of_process hs hcs hlast hsck hproc, ?_, rfl, ?_⟩
  · exact ((hs.shift _).readClock _ _).of_eq rfl rfl rfl
  · exact ⟨hclock.mode, hclock.state, hclock.count, hclock.ireg, hclock.continuous⟩

/-- **A falling edge of a command**: 66 and 99 leave the flash cold, EB begins a read. -/
theorem Commanded.call {b : BitVec 8} (h : Commanded b k f) (hs : Steady mem f) (hk : k < 8)
    (hb : b = 0x66 ∨ b = 0x99 ∨ b = 0xEB) (hcs : p.csn = false) (hlast : f.lastSck = true)
    (hsck : p.sck = false) (hd : p.spiDo = commandBit b k) :
    ∃ g, f.call p = some (g, g.out p.spiDo) ∧ Steady mem g ∧ g.lastSck = false ∧
      if b = 0xEB ∧ k = 7 then ∀ a, Reading a true 0 g else Commanded b (k + 1) g := by
  have hclock := h.shift hk
  rw [← hd] at hclock
  have hs' := hs.shift p.spiDo
  by_cases h7 : k = 7
  · subst h7
    have hproc := hclock.process_eight
    rw [hclock.command hs' hb] at hproc
    by_cases heb : b = 0xEB
    · rw [if_pos heb] at hproc
      refine ⟨_, call_of_process hs hcs hlast hsck hproc, hs'.of_eq rfl rfl rfl, rfl, ?_⟩
      rw [if_pos ⟨heb, rfl⟩]
      intro a
      refine ⟨rfl, rfl, hclock.count, fun _ => ?_, by omega, hclock.cold.continuous, by omega,
        by omega, by omega, by omega⟩
      rw [Nat.pow_zero, Nat.mod_one]
      exact (Nat.div_eq_of_lt a.isLt).symm
    · rw [if_neg heb] at hproc
      refine ⟨_, call_of_process hs hcs hlast hsck hproc, hs'.of_eq rfl rfl rfl, rfl, ?_⟩
      rw [if_neg fun hand => heb hand.1]
      exact ⟨⟨hclock.cold.mode, hclock.cold.state, hclock.cold.continuous⟩, hclock.count,
        hclock.ireg⟩
  · have hproc := hclock.process_lt (Nat.succ_pos k) (by omega)
    refine ⟨_, call_of_process hs hcs hlast hsck hproc, hs'.of_eq rfl rfl rfl, rfl, ?_⟩
    rw [if_neg (by simp [h7])]
    exact ⟨⟨hclock.cold.mode, hclock.cold.state, hclock.cold.continuous⟩, hclock.count,
      hclock.ireg⟩

/-- The nibble that the flash drives from clock 13 of a read on. -/
theorem Reading.out {first : Bool} (h : Reading a first j f) (hj : 13 ≤ j) (dat : BitVec 4) :
    f.out dat = nibbleAt f.mem a (j - 13) := by
  rw [FlashSim.out, h.mode, ← h.nibble hj]

/-! ## Selections that end -/

theorem Commanded.deselect {b : BitVec 8} (h : Commanded b k f) : Cold f.deselect := h.cold.deselect

/-- A read that ends with or after its mode byte leaves the flash warm. -/
theorem Reading.deselect {first : Bool} (h : Reading a first j f) :
    if first = true ∧ j < 8 then Cold f.deselect else Warm f.deselect := by
  have hst := h.state
  have hcont := h.continuous
  rw [readState] at hst
  by_cases hidle : first = false ∧ j < 6
  · rw [if_neg (by simp [hidle.1])] at hst ⊢
    rw [if_pos hidle.2] at hst
    rw [hidle.1] at hcont
    exact Warm.deselect ⟨h.mode, hst, hcont⟩
  · have hread : f.state = .quadReadCmd ∨ f.state = .quadRead := by
      cases first <;> simp_all
    have hend := deselect_read hread
    split_ifs with hcold
    · rw [hcont, hcold.1, decide_eq_false (by omega)] at hend
      exact hend
    · have hwarm : f.continuous = true := by
        rw [hcont, Bool.or_eq_true, decide_eq_true_iff]
        cases first <;> simp_all
      rw [hwarm] at hend
      exact hend h.mode

/-- A misread command ends the continuous reads if it is complete. -/
theorem Misread.deselect (h : Misread k f) (hk : k ≤ 8) :
    if k < 8 then Warm f.deselect else Cold f.deselect := by
  have hst := h.state
  have hcont := h.continuous
  rw [readState, if_neg Bool.false_ne_true] at hst
  by_cases h6 : k < 6
  · rw [if_pos h6] at hst
    rw [if_pos (by omega)]
    rw [decide_eq_true (by omega)] at hcont
    exact Warm.deselect ⟨h.mode, hst, hcont⟩
  · rw [if_neg h6] at hst
    have hend := deselect_read (.inr hst)
    split_ifs with h8
    · rw [hcont, decide_eq_true h8] at hend
      exact hend h.mode
    · rw [hcont, decide_eq_false h8] at hend
      exact hend

end FlashSim

end KwsSoc.Sim
