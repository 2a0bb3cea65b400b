import KwsSoc.Xip.Landing

/-! # The flash controller on its own

What `flash_ctrl_eb` does with its pins, whatever nibbles come back. The waveform of a transaction
is a list of pin levels, one a cycle (`transaction`): the reset commands and the read command the
first time, then address, mode, dummy clocks and data clocks. `Transaction` adds what is captured:
the bytes of the line, the word bits and `done`, with the cycle from which each holds until the next
start. `transaction_of_start` shows this for every run from reset in which starts come while the
controller is idle, and `released_of_idle` that nothing else moves the pins. -/

namespace KwsSoc.Xip

open SyncMachine

/-! ## Waveforms -/

/-- `n` SPI clocks: in clock `k` SCK is low, then high, with `f k` on the data lines. -/
def clocks (n : ℕ) (doe : BitVec 4) (f : ℕ → BitVec 4) : List SpiPins :=
  (List.range (2 * n)).map fun t => ⟨false, t % 2 == 1, doe, f (t / 2)⟩

/-- `n` cycles with chip select released. -/
def released (n : ℕ) : List SpiPins := List.replicate n ⟨true, false, 0, 0⟩

/-- A command byte on data line 0, most significant bit first. -/
def command (b : BitVec 8) : List SpiPins :=
  clocks 8 0b1101 fun k => (BitVec.ofBool (b.getLsbD (7 - k))).setWidth 4

/-- A read: six address nibbles, most significant first, the mode nibbles `A` and `0`, four dummy
clocks and 64 data clocks with all drivers off. -/
def readAt (a : BitVec 24) : List SpiPins :=
  clocks 6 0b1111 (fun k => a.extractLsb' (20 - 4 * k) 4) ++
    clocks 2 0b1111 (fun k => if k = 0 then 0xA else 0) ++ clocks 4 0 (fun _ => 0) ++
    clocks 64 0 (fun _ => 0)

/-- What precedes the address of the first read after a reset: the commands `66` and `99`, each in a
chip selection of its own, and `EB`. -/
def preamble (T : TrstCycles) : List SpiPins :=
  command 0x66 ++ released 4 ++ command 0x99 ++ released T.val ++ command 0xEB

/-- **The waveform of a transaction.** -/
def transaction (T : TrstCycles) (first : Bool) (a : BitVec 24) : List SpiPins :=
  (if first then preamble T else []) ++ readAt a ++ released 4

@[simp] theorem length_clocks (n : ℕ) (doe : BitVec 4) (f : ℕ → BitVec 4) :
    (clocks n doe f).length = 2 * n := by
  simp [clocks]

@[simp] theorem length_released (n : ℕ) : (released n).length = n := List.length_replicate

@[simp] theorem length_command (b : BitVec 8) : (command b).length = 16 := length_clocks _ _ _

@[simp] theorem length_readAt (a : BitVec 24) : (readAt a).length = 152 := by simp [readAt]

@[simp] theorem length_preamble (T : TrstCycles) : (preamble T).length = 52 + T.val := by
  simp only [preamble, List.length_append, length_command, length_released]
  omega

/-- The cycles of a transaction. -/
theorem length_transaction (T : TrstCycles) (first : Bool) (a : BitVec 24) :
    (transaction T first a).length = (if first then 52 + T.val else 0) + 156 := by
  cases first <;> simp [transaction]

/-- The waveform of a state. -/
def FState.wave (T : TrstCycles) (a : BitVec 24) : FState → List SpiPins
  | .idle => []
  | .cmd66 => command 0x66
  | .cmd99 => command 0x99
  | .cmdEb => command 0xEB
  | .wait66 | .doneWait => released 4
  | .trstWait => released T.val
  | .addr => clocks 6 0b1111 fun k => a.extractLsb' (20 - 4 * k) 4
  | .mode => clocks 2 0b1111 fun k => if k = 0 then 0xA else 0
  | .dummy => clocks 4 0 fun _ => 0
  | .data => clocks 64 0 fun _ => 0

@[simp] theorem FState.length_wave (T : TrstCycles) (a : BitVec 24) (q : FState) :
    (q.wave T a).length = q.len T := by
  cases q <;> simp [FState.wave, FState.len]

namespace FlashCtrl

variable {w : ℕ} {r : FlashCtrl w} {a : BitVec 24}

/-- The clock a tick belongs to. -/
theorem toNat_clock (t : BitVec 16) : (t.extractLsb' 1 3).toNat = t.toNat / 2 % 8 := by
  rw [BitVec.extractLsb'_toNat, Nat.shiftRight_eq_div_pow]

/-- SCK follows the ticks of a selected state. -/
theorem pins_selected (h : r.active = true) :
    r.pins a = ⟨false, r.phaseTick.toNat % 2 == 1, r.doe, r.spiDo a⟩ := by
  have hodd : r.phaseTick.getLsbD 0 = (r.phaseTick.toNat % 2 == 1) := by
    rw [Bool.eq_iff_iff, getLsbD_zero_iff, beq_iff_eq]
  rw [pins, h, hodd]
  rfl

/-- The data lines of a command. -/
theorem cmdBit_eq (h : r.phaseTick.toNat < 16) (cmd : BitVec 8) :
    r.cmdBit cmd = (BitVec.ofBool (cmd.getLsbD (7 - r.phaseTick.toNat / 2))).setWidth 4 := by
  rw [cmdBit, toNat_clock, Nat.mod_eq_of_lt (by omega)]

/-- The data lines of the address. -/
theorem spiDo_addr_eq (hs : r.state = .addr) (ht : r.phaseTick.toNat < 12) :
    r.spiDo a = a.extractLsb' (20 - 4 * (r.phaseTick.toNat / 2)) 4 := by
  apply BitVec.eq_of_toNat_eq
  have hk : r.phaseTick.toNat / 2 ≤ 5 := by omega
  rw [spiDo_addr hs ht, BitVec.extractLsb'_toNat, Nat.shiftRight_eq_div_pow]
  rw [show 20 - 4 * (r.phaseTick.toNat / 2) = 4 * (5 - r.phaseTick.toNat / 2) by omega, pow_mul]
  rfl

/-- The data lines of the mode. -/
theorem spiDo_mode (hs : r.state = .mode) (ht : r.phaseTick.toNat < 4) :
    r.spiDo a = if r.phaseTick.toNat / 2 = 0 then 0xA else 0 := by
  have hsel : r.phaseTick.extractLsb' 1 3 = BitVec.ofNat 3 (r.phaseTick.toNat / 2) := by
    apply BitVec.eq_of_toNat_eq
    rw [toNat_clock, BitVec.toNat_ofNat]
  rw [spiDo, hs, hsel]
  obtain h | h : r.phaseTick.toNat / 2 = 0 ∨ r.phaseTick.toNat / 2 = 1 := by omega
  · rw [h]
    rfl
  · rw [h]
    rfl

/-- **The pins in a tick of a state.** -/
theorem pins_eq_wave {T : TrstCycles} {q : FState} (hs : r.state = q)
    (h : r.phaseTick.toNat < (q.wave T a).length) : r.pins a = (q.wave T a)[r.phaseTick.toNat] := by
  have ht := h
  rw [FState.length_wave] at ht
  cases q
  case idle => exact absurd ht (Nat.not_lt_zero _)
  case wait66 | trstWait | doneWait =>
    simp only [FState.wave, released, List.getElem_replicate, pins, active, doe, spiDo, hs,
      Bool.not_false, Bool.false_and]
  case cmd66 | cmd99 | cmdEb =>
    simp only [FState.len] at ht
    rw [pins_selected (by rw [active, hs])]
    simp only [FState.wave, command, clocks, List.getElem_map, List.getElem_range]
    rw [doe, spiDo, hs]
    simp only [cmdBit_eq ht]
  case addr =>
    rw [pins_selected (by rw [active, hs]), spiDo_addr_eq hs ht, doe, hs]
    simp only [FState.wave, clocks, List.getElem_map, List.getElem_range]
  case mode =>
    rw [pins_selected (by rw [active, hs]), spiDo_mode hs ht, doe, hs]
    simp only [FState.wave, clocks, List.getElem_map, List.getElem_range]
  case dummy | data =>
    rw [pins_selected (by rw [active, hs]), spiDo, doe, hs]
    simp only [FState.wave, clocks, List.getElem_map, List.getElem_range]

end FlashCtrl

/-! ## Runs of the controller -/

/-- What reaches the controller in one cycle: start pulse, data pins and address. -/
structure FlashIn where
  start : Bool
  di : BitVec 4
  a : BitVec 24

namespace FlashCtrl

variable {w : ℕ}

/-- The controller in cycle `n` of a run from reset. -/
def run (w : ℕ) (T : TrstCycles) (i : ℕ → FlashIn) (n : ℕ) : FlashCtrl w :=
  trace (fun r x => r.step T x.start x.di) (reset w) i n

/-- The pins in cycle `n`. -/
def pinsAt (w : ℕ) (T : TrstCycles) (i : ℕ → FlashIn) (n : ℕ) : SpiPins :=
  (run w T i n).pins (i n).a

/-- Start pulses come while the controller is idle. -/
def StartsIdle (w : ℕ) (T : TrstCycles) (i : ℕ → FlashIn) : Prop :=
  ∀ n, (i n).start = true → (run w T i n).state = .idle

/-- From cycle `n` on the pins go through the levels of `l`. -/
def Shows (w : ℕ) (T : TrstCycles) (i : ℕ → FlashIn) (n : ℕ) (l : List SpiPins) : Prop :=
  ∀ k (h : k < l.length), pinsAt w T i (n + k) = l[k]

variable {T : TrstCycles} {i : ℕ → FlashIn} {n : ℕ}

theorem run_succ (w : ℕ) (T : TrstCycles) (i : ℕ → FlashIn) (n : ℕ) :
    run w T i (n + 1) = (run w T i n).step T (i n).start (i n).di := rfl

/-- Two stretches of the waveform, one after the other. -/
theorem Shows.append {l l' : List SpiPins} {m : ℕ} (h : Shows w T i n l) (hm : n + l.length = m)
    (h' : Shows w T i m l') : Shows w T i n (l ++ l') := by
  subst hm
  intro k hk
  by_cases hl : k < l.length
  · rw [List.getElem_append_left hl]
    exact h k hl
  · obtain ⟨j, rfl⟩ := Nat.exists_eq_add_of_le (Nat.le_of_not_lt hl)
    rw [List.getElem_append_right (Nat.le_add_right _ _), ← Nat.add_assoc]
    simp only [Nat.add_sub_cancel_left]
    exact h' j (by rw [List.length_append] at hk; omega)

/-- The controller enters state `q` in cycle `n`. -/
def Enters (w : ℕ) (T : TrstCycles) (i : ℕ → FlashIn) (n : ℕ) (q : FState) : Prop :=
  (run w T i n).state = q ∧ (run w T i n).phaseTick = 0

/-- **A state lasts for its ticks**, whatever the inputs are. -/
theorem Enters.during {q : FState} (h : Enters w T i n q) (hq : q ≠ .idle) {t : ℕ}
    (ht : t < q.len T) :
    (run w T i (n + t)).state = q ∧ (run w T i (n + t)).phaseTick.toNat = t := by
  induction t with
  | zero => exact ⟨h.1, by rw [Nat.add_zero, h.2]; rfl⟩
  | succ t ih =>
    obtain ⟨hs, htk⟩ := ih (Nat.lt_of_succ_lt ht)
    have hin : (run w T i (n + t)).InTick T := ⟨by rw [hs]; exact hq, by rw [hs, htk]; omega⟩
    rcases step_running hin (i (n + t)).start (i (n + t)).di with ⟨hl, -, -⟩ | ⟨-, hs', htk'⟩
    · rw [hs, htk] at hl
      omega
    · exact ⟨hs'.trans hs, htk'.trans (by rw [htk])⟩

/-- After them the next state is entered. -/
theorem Enters.next {q : FState} (h : Enters w T i n q) (hq : q ≠ .idle) :
    Enters w T i (n + q.len T) q.succ := by
  have hpos := FState.len_pos T hq
  obtain ⟨t, ht⟩ := Nat.exists_eq_succ_of_ne_zero hpos.ne'
  obtain ⟨hs, htk⟩ := h.during hq (t := t) (by omega)
  have hin : (run w T i (n + t)).InTick T := ⟨by rw [hs]; exact hq, by rw [hs, htk]; omega⟩
  rw [ht]
  rcases step_running hin (i (n + t)).start (i (n + t)).di with ⟨-, hs', htk'⟩ | ⟨hl, -, -⟩
  · exact ⟨by rw [← hs]; exact hs', htk'⟩
  · rw [hs, htk] at hl
    omega

/-- A state shows its waveform while the address is held. -/
theorem Enters.shows {q : FState} (h : Enters w T i n q) {a : BitVec 24}
    (ha : ∀ k < q.len T, (i (n + k)).a = a) : Shows w T i n (q.wave T a) := by
  intro k hk
  have hlen := hk
  rw [FState.length_wave] at hlen
  have hq : q ≠ .idle := by
    rintro rfl
    exact Nat.not_lt_zero _ hlen
  obtain ⟨hs, ht⟩ := h.during hq hlen
  have hwave := pins_eq_wave (a := a) (T := T) hs (by rw [ht]; exact hk)
  rw [pinsAt, ha k hlen, hwave]
  simp only [ht]

/-- The way from the address to the data phase and back to idle. -/
theorem Enters.read (h : Enters w T i n .addr) :
    Enters w T i (n + 12) .mode ∧ Enters w T i (n + 16) .dummy ∧ Enters w T i (n + 24) .data ∧
      Enters w T i (n + 152) .doneWait ∧ Enters w T i (n + 156) .idle := by
  have h1 : Enters w T i (n + 12) .mode := h.next (by decide)
  have h2 : Enters w T i (n + 16) .dummy := h1.next (by decide)
  have h3 : Enters w T i (n + 24) .data := h2.next (by decide)
  have h4 : Enters w T i (n + 152) .doneWait := h3.next (by decide)
  exact ⟨h1, h2, h3, h4, h4.next (by decide)⟩

/-- A read shows its waveform. -/
theorem Enters.shows_read (h : Enters w T i n .addr) {a : BitVec 24}
    (ha : ∀ k < 156, (i (n + k)).a = a) : Shows w T i n (readAt a ++ released 4) := by
  obtain ⟨h1, h2, h3, h4, -⟩ := h.read
  have hheld : ∀ d m, d + m ≤ 156 → ∀ k < m, (i (n + d + k)).a = a := fun d m hd k hk => by
    rw [Nat.add_assoc]
    exact ha _ (by omega)
  have s0 := h.shows (hheld 0 12 (by decide))
  have s1 := h1.shows (hheld 12 4 (by decide))
  have s2 := h2.shows (hheld 16 8 (by decide))
  have s3 := h3.shows (hheld 24 128 (by decide))
  have s4 := h4.shows (hheld 152 4 (by decide))
  exact (((s0.append (by simp [FState.len]) s1).append (by simp [FState.len]) s2).append
    (by simp [FState.len]) s3).append (by simp [FState.len]) s4

/-- The way through the reset commands to the address. -/
theorem Enters.commands (h : Enters w T i n .cmd66) :
    Enters w T i (n + 16) .wait66 ∧ Enters w T i (n + 20) .cmd99 ∧ Enters w T i (n + 36) .trstWait ∧
      Enters w T i (n + 36 + T.val) .cmdEb ∧ Enters w T i (n + 36 + T.val + 16) .addr := by
  have h1 : Enters w T i (n + 16) .wait66 := h.next (by decide)
  have h2 : Enters w T i (n + 20) .cmd99 := h1.next (by decide)
  have h3 : Enters w T i (n + 36) .trstWait := h2.next (by decide)
  have h4 : Enters w T i (n + 36 + T.val) .cmdEb := h3.next (by decide)
  exact ⟨h1, h2, h3, h4, h4.next (by decide)⟩

/-- The commands show their waveform. -/
theorem Enters.shows_preamble (h : Enters w T i n .cmd66) {a : BitVec 24}
    (ha : ∀ k < 52 + T.val, (i (n + k)).a = a) : Shows w T i n (preamble T) := by
  obtain ⟨h1, h2, h3, h4, -⟩ := h.commands
  have hheld : ∀ d m, d + m ≤ 52 + T.val → ∀ k < m, (i (n + d + k)).a = a := fun d m hd k hk => by
    rw [Nat.add_assoc]
    exact ha _ (by omega)
  have s0 := h.shows (hheld 0 16 (by omega))
  have s1 := h1.shows (hheld 16 4 (by omega))
  have s2 := h2.shows (hheld 20 16 (by omega))
  have s3 := h3.shows (hheld 36 T.val (by omega))
  have s4 := h4.shows (a := a) (fun k hk => by
    rw [Nat.add_assoc, Nat.add_assoc]
    exact ha _ (by change k < 16 at hk; omega))
  exact (((s0.append (by simp [FState.len]) s1).append (by simp [FState.len]) s2).append
    (by simp [FState.len]) s3).append (by simp [FState.len]; omega) s4

/-! ## From one start to the next -/

/-- No start pulse before cycle `n`. -/
def isFirstStart (i : ℕ → FlashIn) (n : ℕ) : Bool := decide (∀ k < n, (i k).start = false)

/-- A start pulse enters the first state of the transaction. -/
theorem enters_of_start (hs : (run w T i n).state = .idle) (hst : (i n).start = true) :
    Enters w T i (n + 1) (if (run w T i n).isFirst then .cmd66 else .addr) := by
  have hnext : (run w T i n).nextState T (i n).start =
      if (run w T i n).isFirst then .cmd66 else .addr := by
    rw [nextState, hs, hst]
    rfl
  refine ⟨hnext, ?_⟩
  have hne : (run w T i n).state ≠ (run w T i n).nextState T (i n).start := by
    rw [hs, hnext]
    split <;> decide
  exact if_pos hne

/-- **`is_first`** is high until the first transaction has been through `DATA`. -/
theorem isFirst_run (n : ℕ) :
    ((∀ k < n, (i k).start = false) ∧ (run w T i n).state = .idle ∧ (run w T i n).isFirst = true) ∨
      ((∃ k < n, (i k).start = true) ∧
        ((run w T i n).state = .idle ∨ (run w T i n).state = .doneWait →
          (run w T i n).isFirst = false)) := by
  induction n with
  | zero => exact Or.inl ⟨fun k hk => absurd hk (Nat.not_lt_zero k), rfl, rfl⟩
  | succ n ih =>
    have hstep : (run w T i (n + 1)).state = (run w T i n).nextState T (i n).start := rfl
    have hfirst : (run w T i (n + 1)).isFirst =
        if (run w T i n).state = .data ∧ (run w T i n).phaseTick = 127 then false
        else (run w T i n).isFirst := rfl
    rcases ih with ⟨hno, hs, hf⟩ | ⟨⟨k, hk, hst⟩, himp⟩
    · cases hst : (i n).start with
      | false =>
        refine Or.inl ⟨fun k hk => ?_, ?_, ?_⟩
        · rcases Nat.lt_succ_iff_lt_or_eq.mp hk with h | rfl
          · exact hno k h
          · exact hst
        · rw [hstep, nextState, hs, hst]
          rfl
        · rw [hfirst, hs, hf]
          simp
      | true =>
        refine Or.inr ⟨⟨n, Nat.lt_succ_self n, hst⟩, fun h => ?_⟩
        rw [hstep, nextState, hs, hst, hf] at h
        simp at h
    · refine Or.inr ⟨⟨k, Nat.lt_succ_of_lt hk, hst⟩, fun h => ?_⟩
      rw [hfirst]
      -- `DATA` is left with `is_first` cleared, and nothing sets it
      cases hs : (run w T i n).state
      case idle | doneWait => simp [himp (by simp [hs])]
      all_goals
        rw [hstep, nextState, hs] at h
        dsimp only at h
        split_ifs at h with hl
        all_goals simp_all

theorem isFirst_eq (hs : (run w T i n).state = .idle) :
    (run w T i n).isFirst = isFirstStart i n := by
  rcases isFirst_run (w := w) (T := T) (i := i) n with ⟨hno, -, hf⟩ | ⟨⟨k, hk, hst⟩, himp⟩
  · rw [hf, isFirstStart, decide_eq_true hno]
  · rw [himp (Or.inl hs), isFirstStart, eq_comm, decide_eq_false_iff_not]
    intro hno
    rw [hno k hk] at hst
    cases hst

/-- The cycles of the transaction that starts in cycle `n`. -/
def total (T : TrstCycles) (i : ℕ → FlashIn) (n : ℕ) : ℕ :=
  (if isFirstStart i n then 52 + T.val else 0) + 156

/-- The start in cycle `n` is the last one before cycle `m`. -/
def LastStart (i : ℕ → FlashIn) (n m : ℕ) : Prop :=
  n < m ∧ (i n).start = true ∧ ∀ k, n < k → k < m → (i k).start = false

/-- The first cycle of its data phase. -/
def dataStart (T : TrstCycles) (i : ℕ → FlashIn) (n : ℕ) : ℕ :=
  n + 1 + (if isFirstStart i n then 52 + T.val else 0) + 24

/-- The nibbles sampled in it, each in the cycle in which SCK is high. -/
def sampled (T : TrstCycles) (i : ℕ → FlashIn) (n : ℕ) (j : ℕ) : BitVec 4 :=
  (i (dataStart T i n + (2 * j + 1))).di

theorem dataStart_add (T : TrstCycles) (i : ℕ → FlashIn) (n : ℕ) :
    dataStart T i n + 132 = n + 1 + total T i n := by
  rw [dataStart, total]
  omega

/-- The cycle after a start. -/
theorem run_start (hst : (i n).start = true) :
    run w T i (n + 1) = (run w T i n).step T true (i n).di := by
  rw [run_succ, hst]

/-- A cycle without a start. -/
theorem run_quiet {m : ℕ} (hst : (i m).start = false) :
    run w T i (m + 1) = (run w T i m).step T false (i m).di := by
  rw [run_succ, hst]

/-- **The controller counts down** from a start, and waits at idle for the next one. -/
theorem remaining_run (hs : (run w T i n).state = .idle) {m : ℕ} (h : LastStart i n m) :
    (run w T i m).remaining T = n + 1 + total T i n - m ∧
      ((run w T i m).InTick T ∨ (run w T i m).state = .idle) := by
  obtain ⟨hnm, hst, hquiet⟩ := h
  induction m, hnm using Nat.le_induction with
  | base =>
    obtain ⟨hin, -, hrem, -⟩ := start_step (T := T) hs (i n).di
    rw [← run_start hst] at hin hrem
    rw [isFirst_eq hs] at hrem
    refine ⟨?_, Or.inl hin⟩
    rw [hrem, total]
    split <;> omega
  | succ m hnm ih =>
    obtain ⟨hrem, hpos⟩ := ih fun k hk hkm => hquiet k hk (by omega)
    rcases hpos with hin | hm
    · have hstep := remaining_step hin (i m).start (i m).di
      refine ⟨?_, hstep.2.imp id fun h => h.1⟩
      rw [run_succ]
      omega
    · -- idle, and no start in cycle `m`
      have hm' := (idle_step (T := T) hm (i m).di).1
      rw [← run_quiet (hquiet m hnm (Nat.lt_succ_self m))] at hm'
      have hzero : ∀ k, (run w T i k).state = .idle → (run w T i k).remaining T = 0 := by
        intro k hk
        rw [remaining, hk]
        exact Nat.zero_sub _
      rw [hzero m hm] at hrem
      exact ⟨by rw [hzero (m + 1) hm']; omega, Or.inr hm'⟩

/-- **Rule for what holds until the next start**: it holds after the start, and is kept by a running
and by an idle controller. -/
@[elab_as_elim] theorem LastStart.induct {P : ℕ → Prop} (hs : (run w T i n).state = .idle) {m : ℕ}
    (h : LastStart i n m)
    (hbase : P (n + 1))
    (hrun : ∀ k, LastStart i n k → (run w T i k).InTick T → (i k).start = false → P k → P (k + 1))
    (hwait : ∀ k, LastStart i n k → (run w T i k).state = .idle → (i k).start = false →
      P k → P (k + 1)) : P m := by
  obtain ⟨hnm, hst, hquiet⟩ := h
  induction m, hnm using Nat.le_induction with
  | base => exact hbase
  | succ m hnm ih =>
    have hm : LastStart i n m := ⟨hnm, hst, fun k hk hkm => hquiet k hk (by omega)⟩
    have hq := hquiet m hnm (Nat.lt_succ_self m)
    rcases (remaining_run hs hm).2 with hin | hm'
    · exact hrun m hm hin hq (ih hm.2.2)
    · exact hwait m hm hm' hq (ih hm.2.2)

/-- The data ticks along a transaction. -/
theorem dataTicks_run (hs : (run w T i n).state = .idle) {m : ℕ} (h : LastStart i n m) :
    (run w T i m).dataTicks = min (m - dataStart T i n) 128 := by
  obtain ⟨hrem, hpos⟩ := remaining_run hs h
  have hds := dataStart_add T i n
  rw [remaining] at hrem
  rw [dataTicks]
  rcases hpos with ⟨hm, hlt⟩ | hm
  · cases hq : (run w T i m).state <;> rw [hq] at hrem hlt <;>
      simp only [FState.len, FState.after] at hrem hlt ⊢
    case idle => exact absurd hq hm
    all_goals omega
  · rw [hm] at hrem ⊢
    simp only [FState.len, FState.after] at hrem ⊢
    omega

/-- **The capture registers until the next start.** -/
theorem capture_run (hs : (run w T i n).state = .idle) {m : ℕ} (h : LastStart i n m) :
    Filled (sampled T i n) (run w T i n).dataReg (run w T i m).dataTicks (run w T i m) := by
  have hst := h.2.1
  refine h.induct hs ?_ ?_ ?_
  · have hticks := dataTicks_run hs (m := n + 1) ⟨Nat.lt_succ_self n, hst, by omega⟩
    rw [hticks, dataStart, Nat.sub_eq_zero_of_le (by omega), Nat.zero_min, run_start hst]
    exact filled_start _ _
  · intro k hk hin hq hf
    rw [run_quiet hq]
    refine hf.step hin fun hdata hodd => ?_
    -- tick `t` of `DATA` is `t` cycles after the first one
    have hticks := dataTicks_run hs hk
    have hlt := hin.2
    rw [dataTicks, hdata] at hticks
    rw [hdata, FState.len] at hlt
    simp only at hticks
    rw [sampled]
    congr 2
    omega
  · intro k hk hi hq hf
    rw [run_quiet hq]
    exact hf.step_idle hi _

/-- **`done` until the next start**: it comes after the last cycle. -/
theorem done_run (hs : (run w T i n).state = .idle) {m : ℕ} (h : LastStart i n m) :
    (run w T i m).doneReg = decide (n + total T i n < m) := by
  refine h.induct hs ?_ ?_ ?_
  · have hpos : 0 < total T i n := by
      rw [total]
      omega
    rw [run_start h.2.1, decide_eq_false (by omega)]
    rfl
  · intro k hk hin hq hd
    obtain ⟨hrem, -⟩ := remaining_run hs hk
    have hpos := hin.remaining_pos
    rw [run_quiet hq, doneReg_step hin, hd, hrem, Bool.eq_iff_iff]
    simp only [Bool.or_eq_true, decide_eq_true_iff]
    omega
  · intro k hk hi hq hd
    obtain ⟨hrem, -⟩ := remaining_run hs hk
    have hzero : (run w T i k).remaining T = 0 := by
      rw [remaining, hi]
      exact Nat.zero_sub _
    rw [run_quiet hq, (idle_step (T := T) hi (i k).di).2, hd, decide_eq_decide]
    omega

/-! ## The transactions of a run -/

/-- **The transaction that starts in cycle `n`**, for lines of 32 bytes. -/
structure Transaction (T : TrstCycles) (i : ℕ → FlashIn) (n : ℕ) : Prop where
  /-- The pins go through the waveform, if the address is held. -/
  shows : ∀ a, (∀ k < total T i n, (i (n + 1 + k)).a = a) →
    Shows 3 T i (n + 1) (transaction T (isFirstStart i n) a)
  /-- Byte `k` is in its place after four cycles for each byte up to it. -/
  bytes : ∀ m, LastStart i n m → ∀ k : BitVec 5, dataStart T i n + 4 * (k.toNat + 1) ≤ m →
    (run 3 T i m).dataReg k = sampled T i n (2 * k.toNat) ++ sampled T i n (2 * k.toNat + 1)
  /-- The bit of a word is set from the cycle on in which its fourth byte is in its place. -/
  words : ∀ m, LastStart i n m → ∀ k : BitVec 3,
    (run 3 T i m).wordDone k = true ↔ dataStart T i n + 4 * (4 * k.toNat + 3 + 1) ≤ m
  /-- `done` is up from the end of the waveform on. -/
  done : ∀ m, LastStart i n m →
    ((run 3 T i m).doneReg = true ↔ n + 1 + (transaction T (isFirstStart i n) 0).length ≤ m)
  /-- By then all words are set. -/
  all : ∀ m, LastStart i n m → (run 3 T i m).doneReg = true → ∀ k, (run 3 T i m).wordDone k = true

/-- A transaction shows its waveform. -/
theorem shows_transaction (hs : (run w T i n).state = .idle) (hst : (i n).start = true)
    {a : BitVec 24} (ha : ∀ k < total T i n, (i (n + 1 + k)).a = a) :
    Shows w T i (n + 1) (transaction T (isFirstStart i n) a) := by
  have he := enters_of_start hs hst
  rw [isFirst_eq hs] at he
  rw [total] at ha
  rw [transaction]
  cases hf : isFirstStart i n with
  | false =>
    rw [hf] at he ha
    exact Enters.shows_read he fun k hk => ha k (by simpa using hk)
  | true =>
    rw [hf] at he ha
    rw [if_pos rfl, List.append_assoc]
    simp only [if_true] at ha
    obtain ⟨-, -, -, -, h5⟩ := Enters.commands he
    have hp := Enters.shows_preamble he fun k hk => ha k (by omega)
    refine hp.append ?_ (h5.shows_read fun k hk => ?_)
    · rw [length_preamble]
      omega
    · rw [show n + 1 + 36 + T.val + 16 + k = n + 1 + (52 + T.val + k) by omega]
      exact ha _ (by omega)

theorem transaction_of_start (hidle : StartsIdle 3 T i) (hst : (i n).start = true) :
    Transaction T i n := by
  have hds := dataStart_add T i n
  have hwords : ∀ m, LastStart i n m → ∀ k : BitVec 3,
      (run 3 T i m).wordDone k = true ↔ dataStart T i n + 4 * (4 * k.toNat + 3 + 1) ≤ m := by
    intro m hm k
    have hf := capture_run (hidle n hst) hm
    rw [dataTicks_run (hidle n hst) hm] at hf
    have hk := k.isLt
    rw [hf.words, landedWords_iff (by omega)]
    omega
  have hdone : ∀ m, LastStart i n m →
      ((run 3 T i m).doneReg = true ↔ n + total T i n < m) := by
    intro m hm
    rw [done_run (hidle n hst) hm, decide_eq_true_iff]
  refine ⟨fun a ha => shows_transaction (hidle n hst) hst ha, ?_, hwords, ?_, ?_⟩
  · intro m hm k hk
    have hf := capture_run (hidle n hst) hm
    rw [dataTicks_run (hidle n hst) hm] at hf
    have hlt := k.isLt
    rw [hf.line]
    exact landed_of_lt (by omega) (by omega)
  · intro m hm
    rw [hdone m hm, length_transaction, ← total]
    omega
  · intro m hm hd k
    have hk := k.isLt
    rw [hwords m hm]
    have := (hdone m hm).mp hd
    omega

/-- Before any cycle there is a last start, or none. -/
theorem exists_lastStart (i : ℕ → FlashIn) (m : ℕ) :
    (∀ k < m, (i k).start = false) ∨ ∃ n, LastStart i n m := by
  induction m with
  | zero => exact Or.inl fun k hk => absurd hk (Nat.not_lt_zero k)
  | succ m ih =>
    cases hst : (i m).start with
    | true => exact Or.inr ⟨m, Nat.lt_succ_self m, hst, by omega⟩
    | false =>
      rcases ih with hno | ⟨n, hnm, hn, hq⟩
      · left
        intro k hk
        rcases Nat.lt_succ_iff_lt_or_eq.mp hk with h | rfl
        · exact hno k h
        · exact hst
      · refine Or.inr ⟨n, Nat.lt_succ_of_lt hnm, hn, fun k hk hkm => ?_⟩
        rcases Nat.lt_succ_iff_lt_or_eq.mp hkm with h | rfl
        · exact hq k hk h
        · exact hst

/-- After the last transaction the controller is idle. -/
theorem idle_of_lastStart {m : ℕ} (h : ∀ n, LastStart i n m →
    (run w T i n).state = .idle ∧ n + total T i n < m) : (run w T i m).state = .idle := by
  rcases exists_lastStart i m with hno | ⟨n, hn⟩
  · rcases isFirst_run (w := w) (T := T) (i := i) m with ⟨-, hs, -⟩ | ⟨⟨k, hk, hst⟩, -⟩
    · exact hs
    · rw [hno k hk] at hst
      cases hst
  · obtain ⟨hs, hlt⟩ := h n hn
    obtain ⟨hrem, hin | hm⟩ := remaining_run hs hn
    · have hpos := hin.remaining_pos
      omega
    · exact hm

/-- **Starts that are far enough apart** meet an idle controller. -/
theorem startsIdle_of_spaced
    (h : ∀ n m, n < m → (i n).start = true → (i m).start = true → n + total T i n < m) :
    StartsIdle w T i := by
  intro m
  induction m using Nat.strongRecOn with
  | ind m ih =>
    intro hst
    refine idle_of_lastStart fun n hn => ⟨ih n hn.1 hn.2.1, h n m hn.1 hn.2.1 hst⟩

/-- Outside its transactions the controller leaves the pins alone. -/
theorem released_of_idle (hidle : StartsIdle w T i) {m : ℕ}
    (hm : ∀ n, LastStart i n m → n + total T i n < m) :
    pinsAt w T i m = ⟨true, false, 0, 0⟩ := by
  have hs : (run w T i m).state = .idle :=
    idle_of_lastStart fun n hn => ⟨hidle n hn.2.1, hm n hn⟩
  simp only [pinsAt, pins, active, doe, spiDo, hs, Bool.not_false, Bool.false_and]

/-- **Every start is a transaction, and there is nothing else on the pins.** -/
theorem flash_transactions (T : TrstCycles) (i : ℕ → FlashIn) (hidle : StartsIdle 3 T i) :
    (∀ n, (i n).start = true → Transaction T i n) ∧
      ∀ m, (∀ n, LastStart i n m → n + (transaction T (isFirstStart i n) 0).length < m) →
        pinsAt 3 T i m = ⟨true, false, 0, 0⟩ := by
  refine ⟨fun n hst => transaction_of_start hidle hst, fun m hm => released_of_idle hidle ?_⟩
  intro n hn
  have h := hm n hn
  rw [length_transaction, ← total] at h
  exact h

/-- A start in every thousandth cycle, with some nibbles and addresses. -/
def everyThousand (n : ℕ) : FlashIn :=
  ⟨n % 1000 == 0, BitVec.ofNat 4 (n / 2), BitVec.ofNat 24 (n / 1000)⟩

theorem flash_transactions_everyThousand :
    Transaction ⟨360, by decide, by decide⟩ everyThousand 0 ∧
      Transaction ⟨360, by decide, by decide⟩ everyThousand 1000 := by
  have hidle : StartsIdle 3 ⟨360, by decide, by decide⟩ everyThousand := by
    refine startsIdle_of_spaced fun n m hnm hn hm => ?_
    simp only [everyThousand, beq_iff_eq] at hn hm
    have hlen : total ⟨360, by decide, by decide⟩ everyThousand n ≤ 52 + 360 + 156 := by
      rw [total]
      split
      · exact le_rfl
      · decide
    omega
  have h := (flash_transactions ⟨360, by decide, by decide⟩ everyThousand hidle).1
  exact ⟨h 0 rfl, h 1000 rfl⟩

end FlashCtrl

end KwsSoc.Xip
