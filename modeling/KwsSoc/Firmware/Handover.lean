import KwsSoc.Firmware.HopBuffer

/-! # Handing hops over

Two results about the streaming firmware, for every interleaving. A hop-completing interrupt between
the test of `hop_ready` and the `wfi` leaves the main loop asleep for ever (`stuck`), and nothing
else does (`no_lost_wakeup`). And every sample of every burst reaches the engine, once and in order
(`conservation`): the handler owns the hop until it sets `hop_ready`, the main loop from then until
it arms the DMA, which is off in between. -/

namespace KwsSoc.Firmware.Hop.Sys

open SyncMachine

variable {depth : ℕ} {i2s : ℕ → BitVec 32} {s : Sys}

theorem hopBufSz_pos (depth : ℕ) : 0 < hopBufSz depth := by
  unfold hopBufSz kwsBHop
  split <;> omega

/-! ## The handler -/

/-- One word of the batch. -/
theorem extract_succ (i : ℕ) :
    s.extract depth (i + 1) =
      if (s.extract depth i).2 < hopBufSz depth then
        (Function.update (s.extract depth i).1 (s.extract depth i).2 (q7 (s.dmaBatch i)),
          (s.extract depth i).2 + 1)
      else s.extract depth i := rfl

/-- `hop_pos` after `i` words of the batch. -/
theorem extract_pos (h : s.hopPos ≤ hopBufSz depth) (i : ℕ) :
    (s.extract depth i).2 = min (s.hopPos + i) (hopBufSz depth) := by
  induction i with
  | zero =>
    show s.hopPos = _
    omega
  | succ i ih =>
    rw [extract_succ]
    split <;> omega

/-- `hop_buf` after `i` words of the batch: those that fit are appended. -/
theorem extract_buf (h : s.hopPos ≤ hopBufSz depth) (i : ℕ) :
    (∀ k < s.hopPos, (s.extract depth i).1 k = s.hopBuf k) ∧
      ∀ k < i, s.hopPos + k < hopBufSz depth →
        (s.extract depth i).1 (s.hopPos + k) = q7 (s.dmaBatch k) := by
  induction i with
  | zero => exact ⟨fun _ _ => rfl, fun k hk => absurd hk (Nat.not_lt_zero k)⟩
  | succ i ih =>
    obtain ⟨hold, hnew⟩ := ih
    have hpos := extract_pos h i
    rw [extract_succ]
    split
    · rename_i hlt
      refine ⟨fun k hk => ?_, fun k hk hfit => ?_⟩
      · have hne : k ≠ (s.extract depth i).2 := by omega
        simp only [Function.update_of_ne hne]
        exact hold k hk
      · by_cases hki : k = i
        · have heq : s.hopPos + k = (s.extract depth i).2 := by omega
          rw [heq]
          simp only [Function.update_self, hki]
        · have hne : s.hopPos + k ≠ (s.extract depth i).2 := by omega
          simp only [Function.update_of_ne hne]
          exact hnew k (by omega) hfit
    · refine ⟨hold, fun k hk hfit => hnew k ?_ hfit⟩
      omega

/-- A batch that does not complete the hop. -/
theorem handler_more (h : s.hopPos + depth < hopBufSz depth) :
    s.handler depth = { s with
      irq := false, hopBuf := (s.extract depth depth).1, hopPos := s.hopPos + depth
      en := true, armed := true, inBatch := 0 } := by
  have hpos := extract_pos (s := s) (by omega : s.hopPos ≤ hopBufSz depth) depth
  rw [Nat.min_eq_left h.le] at hpos
  unfold handler
  simp only [hpos]
  rw [if_neg (by omega)]
  rfl

/-- A batch that completes the hop. -/
theorem handler_last (hle : s.hopPos ≤ hopBufSz depth) (h : hopBufSz depth ≤ s.hopPos + depth) :
    s.handler depth = { s with
      irq := false, hopBuf := (s.extract depth depth).1, hopPos := hopBufSz depth
      hopReady := true, en := false } := by
  have hpos := extract_pos hle depth
  rw [Nat.min_eq_right h] at hpos
  unfold handler
  simp only [hpos]
  rw [if_pos (le_refl _)]

/-! ## Asleep -/

/-- No interrupt that completes a hop is taken between the test of `hop_ready` and the `wfi`. -/
def NotInWindow (depth : ℕ) (s : Sys) : Prop :=
  s.irq = true → s.mie = true → s.pc = .wfi → s.hopPos + depth < hopBufSz depth

/-- **Invariant of the sleeper**: where the main loop goes to sleep and where it sleeps, the hop is
not complete. -/
structure Sleeper (depth : ℕ) (s : Sys) : Prop where
  hopPos_le : s.hopPos ≤ hopBufSz depth
  waiting : s.pc = .wfi ∨ s.pc = .asleep → s.hopReady = false

theorem Sleeper.init (depth : ℕ) : Sleeper depth Sys.init := ⟨Nat.zero_le _, fun _ => rfl⟩

theorem Sleeper.interrupt (h : Sleeper depth s) (hin : NotInWindow depth s) :
    Sleeper depth (s.interrupt depth) := by
  unfold Sys.interrupt
  split
  case isFalse => exact h
  case isTrue htaken =>
    rcases Nat.lt_or_ge (s.hopPos + depth) (hopBufSz depth) with hmore | hlast
    · rw [handler_more hmore]
      refine ⟨by simp only; omega, ?_⟩
      rintro (hpc | hpc) <;> simp only at hpc <;> split at hpc
      · cases hpc
      · exact h.waiting (Or.inl hpc)
      · cases hpc
      · exact h.waiting (Or.inr hpc)
    · rw [handler_last h.hopPos_le hlast]
      refine ⟨le_refl _, ?_⟩
      rintro (hpc | hpc) <;> simp only at hpc <;> split at hpc
      · cases hpc
      · -- the window
        exact absurd (hin htaken.1 htaken.2 hpc) (by omega)
      · cases hpc
      · exact absurd hpc ‹_›

theorem Sleeper.cpu (h : Sleeper depth s) : Sleeper depth (s.cpu depth) := by
  obtain ⟨hle, hwait⟩ := h
  unfold Sys.cpu
  -- only the failed test leads to `wfi`, and only `wfi` to sleep
  cases hpc : s.pc
  case test =>
    refine ⟨hle, ?_⟩
    simp only
    cases hr : s.hopReady
    · exact fun _ => rfl
    · rintro (hc | hc) <;> cases hc
  case wfi => exact ⟨hle, fun _ => hwait (Or.inl hpc)⟩
  case asleep =>
    simp only
    split
    · refine ⟨hle, ?_⟩
      rintro (hc | hc) <;> cases hc
    · exact ⟨hle, hwait⟩
  case retest =>
    simp only
    split <;> refine ⟨hle, ?_⟩ <;> rintro (hc | hc) <;> cases hc
  case copy j =>
    refine ⟨hle, ?_⟩
    rintro (hc | hc) <;> simp only at hc <;> split at hc <;> cases hc
  case resetPos =>
    refine ⟨Nat.zero_le _, ?_⟩
    rintro (hc | hc) <;> cases hc
  all_goals
    refine ⟨hle, ?_⟩
    rintro (hc | hc) <;> cases hc

theorem Sleeper.step (h : Sleeper depth s) (e : Event) (hin : e = .irq → NotInWindow depth s) :
    Sleeper depth (s.step depth i2s e) := by
  cases e
  case word =>
    unfold Sys.step Sys.word
    simp only
    split <;> exact ⟨h.hopPos_le, h.waiting⟩
  case complete =>
    unfold Sys.step Sys.complete
    simp only
    split <;> exact ⟨h.hopPos_le, h.waiting⟩
  case irq => exact h.interrupt (hin rfl)
  case cpu => exact h.cpu

/-- The main loop neither copies nor holds a copy. -/
def idle : Pc → Bool
  | .enableMie | .test | .wfi | .asleep | .retest => true
  | _ => false

/-- The main loop has taken the hop and `hop_ready` is still set. -/
def taken : Pc → Bool
  | .copy _ | .resetPos | .clearReady => true
  | _ => false

/-- The hop has been copied, and `hop_pos` is reset for the next. -/
def emptied : Pc → Bool
  | .clearReady | .dmaArm | .push => true
  | _ => false

/-- Samples of `safe_hop` that are copied and not yet passed on. -/
def copied (depth : ℕ) : Pc → ℕ
  | .copy j => j
  | .resetPos | .clearReady | .dmaArm | .push => hopBufSz depth
  | _ => 0

/-- Samples passed on. -/
def passed (depth : ℕ) (s : Sys) : ℕ := hopBufSz depth * s.pushed.length

/-- The place of `hop_buf` in the stream. -/
def base (depth : ℕ) (s : Sys) : ℕ :=
  s.passed depth + if emptied s.pc then hopBufSz depth else 0

/-- Sample `k` of the stream. -/
def sample (i2s : ℕ → BitVec 32) (k : ℕ) : BitVec 8 := q7 (i2s k)

/-- **Invariant of the hand-over.** -/
structure Inv (depth : ℕ) (i2s : ℕ → BitVec 32) (s : Sys) : Prop where
  count : s.base depth + s.hopPos + (if s.irq then depth else 0) = depth * s.completed
  fifo : s.fifoRead = depth * s.completed + if s.armed then s.inBatch else 0
  batch : s.armed = true ∨ s.irq = true →
    ∀ k < s.inBatch, s.dmaBatch k = i2s (s.base depth + s.hopPos + k)
  hop : ∀ k < s.hopPos, s.hopBuf k = sample i2s (s.base depth + k)
  hopPos_le : s.hopPos ≤ hopBufSz depth
  filling : s.hopReady = false → s.hopPos < hopBufSz depth
  full : s.hopReady = true → s.pc ≠ .clearReady → s.hopPos = hopBufSz depth
  reset : s.pc = .clearReady ∨ s.pc = .dmaArm → s.hopPos = 0
  latched : s.irq = true →
    s.armed = false ∧ s.inBatch = depth ∧ s.hopReady = false ∧ s.pc ≠ .dmaArm
  off : s.hopReady = true ∨ s.pc = .dmaArm → s.armed = false
  ready : taken s.pc = true → s.hopReady = true
  not_ready : s.pc = .dmaArm → s.hopReady = false
  inHop : ∀ j, s.pc = .copy j → j < hopBufSz depth
  copy : ∀ k < copied depth s.pc, s.safeHop k = sample i2s (s.passed depth + k)
  handed : idle s.pc = false → depth * s.handedOver = s.passed depth + hopBufSz depth
  pushes : s.pushed.flatMap Prod.snd = (List.range (s.passed depth)).map (sample i2s)
  last : ∀ p ∈ s.pushed.getLast?, depth * p.1 = s.passed depth

theorem Inv.init (depth : ℕ) (i2s : ℕ → BitVec 32) : Inv depth i2s Sys.init := by
  have hpos := hopBufSz_pos depth
  refine ⟨?_, ?_, ?_, ?_, Nat.zero_le _, fun _ => hpos, ?_, ?_, ?_, ?_, ?_, ?_, ?_, ?_, ?_, rfl, ?_⟩
  · show hopBufSz depth * 0 + 0 + 0 + 0 = depth * 0
    omega
  · show 0 = depth * 0 + 0
    omega
  · intro _ k hk
    exact absurd hk (Nat.not_lt_zero k)
  · intro k hk
    exact absurd hk (Nat.not_lt_zero k)
  · rintro ⟨⟩
  · rintro (hc | hc) <;> cases hc
  · rintro ⟨⟩
  · rintro (hc | hc) <;> cases hc
  · rintro ⟨⟩
  · rintro ⟨⟩
  · rintro j ⟨⟩
  · intro k hk
    exact absurd hk (Nat.not_lt_zero k)
  · rintro ⟨⟩
  · rintro p ⟨⟩

theorem Inv.word (h : Inv depth i2s s) : Inv depth i2s (s.word depth i2s) := by
  unfold Sys.word
  split
  case isFalse => exact h
  case isTrue hmove =>
    obtain ⟨-, harmed, hlt⟩ := hmove
    -- no word is moved while a burst is pending
    have hirq : s.irq = false := by
      cases hi : s.irq
      · rfl
      · have := (h.latched hi).1
        rw [harmed] at this
        cases this
    have hcount := h.count
    have hfifo := h.fifo
    rw [hirq] at hcount
    rw [if_pos harmed] at hfifo
    simp only [Bool.false_eq_true, if_false, Nat.add_zero] at hcount
    refine ⟨h.count, ?_, ?_, h.hop, h.hopPos_le, h.filling, h.full, h.reset, ?_, h.off, h.ready,
      h.not_ready, h.inHop, h.copy, h.handed, h.pushes, h.last⟩
    · simp only [harmed, if_true]
      omega
    · intro _ k hk
      show Function.update s.dmaBatch s.inBatch (i2s s.fifoRead) k = i2s (s.base depth + s.hopPos + k)
      by_cases hki : k = s.inBatch
      · rw [hki, Function.update_self, hfifo, hcount]
      · rw [Function.update_of_ne hki]
        refine h.batch (Or.inl harmed) k ?_
        simp only at hk
        omega
    · intro hi
      rw [hirq] at hi
      cases hi

theorem Inv.complete (h : Inv depth i2s s) : Inv depth i2s (s.complete depth) := by
  unfold Sys.complete
  split
  case isFalse => exact h
  case isTrue hend =>
    obtain ⟨-, harmed, hlast⟩ := hend
    have hirq : s.irq = false := by
      cases hi : s.irq
      · rfl
      · have := (h.latched hi).1
        rw [harmed] at this
        cases this
    -- the DMA is off while the main loop owns the hop
    have hnot : s.hopReady = false ∧ s.pc ≠ .dmaArm := by
      constructor
      · cases hr : s.hopReady
        · rfl
        · have := h.off (Or.inl hr)
          rw [harmed] at this
          cases this
      · intro hpc
        have := h.off (Or.inr hpc)
        rw [harmed] at this
        cases this
    have hcount := h.count
    have hfifo := h.fifo
    rw [hirq] at hcount
    rw [if_pos harmed] at hfifo
    simp only [Bool.false_eq_true, if_false, Nat.add_zero] at hcount
    refine ⟨?_, ?_, ?_, h.hop, h.hopPos_le, h.filling, h.full, h.reset, ?_, ?_, h.ready,
      h.not_ready, h.inHop, h.copy, h.handed, h.pushes, h.last⟩
    · show s.base depth + s.hopPos + depth = depth * (s.completed + 1)
      rw [hcount, Nat.mul_succ]
    · show s.fifoRead = depth * (s.completed + 1) + 0
      rw [Nat.mul_succ]
      omega
    · exact fun _ => h.batch (Or.inl harmed)
    · exact fun _ => ⟨rfl, hlast, hnot.1, hnot.2⟩
    · exact fun _ => rfl

/-- Bursts fill the hop exactly. -/
theorem Inv.fits (h : Inv depth i2s s) (hdvd : depth ∣ hopBufSz depth) (hirq : s.irq = true) :
    s.hopPos + depth ≤ hopBufSz depth := by
  have hlt := h.filling (h.latched hirq).2.2.1
  have hcount := h.count
  rw [if_pos hirq] at hcount
  obtain ⟨m, hm⟩ := hdvd
  -- what the handler has taken so far is a number of bursts, and so is what has been handed over
  have hbase : depth ∣ s.base depth := by
    unfold base passed
    split
    · exact Nat.dvd_add (Dvd.dvd.mul_right ⟨m, hm⟩ _) ⟨m, hm⟩
    · exact Nat.dvd_add (Dvd.dvd.mul_right ⟨m, hm⟩ _) (dvd_zero _)
  have hpos : depth ∣ s.hopPos := by
    have hsum : depth ∣ s.base depth + s.hopPos + depth := ⟨_, hcount⟩
    exact (Nat.dvd_add_right hbase).mp ((Nat.dvd_add_left (dvd_refl depth)).mp hsum)
  obtain ⟨q, hq⟩ := hpos
  rw [hm, hq] at hlt ⊢
  have hqm := lt_of_mul_lt_mul_left hlt (Nat.zero_le depth)
  rw [← Nat.mul_succ]
  exact Nat.mul_le_mul_left depth hqm

/-- The hop after the handler's loop. -/
theorem Inv.extracted (h : Inv depth i2s s) (hirq : s.irq = true)
    (hfits : s.hopPos + depth ≤ hopBufSz depth) :
    ∀ k < s.hopPos + depth, (s.extract depth depth).1 k = sample i2s (s.base depth + k) := by
  obtain ⟨-, hlen, -, -⟩ := h.latched hirq
  have hbuf := extract_buf h.hopPos_le depth
  intro k hk
  rcases Nat.lt_or_ge k s.hopPos with hold | hnew
  · rw [hbuf.1 k hold]
    exact h.hop k hold
  · obtain ⟨i, rfl⟩ := Nat.exists_eq_add_of_le hnew
    rw [hbuf.2 i (by omega) (by omega), h.batch (Or.inr hirq) i (by omega), Nat.add_assoc]
    rfl

/-- A program point behind the interrupt: the main loop holds what it held before, and it is not
where it owns the hop. -/
structure Woken (depth : ℕ) (s : Sys) (p : Pc) : Prop where
  emptied : Sys.emptied p = Sys.emptied s.pc
  copied : Sys.copied depth p = Sys.copied depth s.pc
  idle : Sys.idle p = Sys.idle s.pc
  not_taken : taken p = false
  not_arm : p ≠ .dmaArm

/-- Waking up does not change what the main loop holds. -/
theorem Inv.woken (h : Inv depth i2s s) (hirq : s.irq = true) :
    Woken depth s (if s.pc = .asleep then .retest else s.pc) := by
  obtain ⟨-, -, hready, hpc⟩ := h.latched hirq
  by_cases has : s.pc = .asleep
  · rw [if_pos has]
    exact ⟨by rw [has]; rfl, by rw [has]; rfl, by rw [has]; rfl, rfl, Pc.noConfusion⟩
  · rw [if_neg has]
    refine ⟨rfl, rfl, rfl, ?_, hpc⟩
    cases ht : taken s.pc
    · rfl
    · -- the main loop owns the hop only while `hop_ready` is set
      have := h.ready ht
      rw [hready] at this
      cases this

theorem Woken.not_clear {p : Pc} (hw : Woken depth s p) : p ≠ .clearReady := by
  rintro rfl
  have := hw.not_taken
  cases this

theorem Woken.not_copy {p : Pc} (hw : Woken depth s p) (j : ℕ) : p ≠ .copy j := by
  rintro rfl
  have := hw.not_taken
  cases this

/-- The interrupt of a burst that does not complete the hop. -/
theorem Inv.handler_more (h : Inv depth i2s s) (hirq : s.irq = true) {p : Pc}
    (hw : Woken depth s p) (hmore : s.hopPos + depth < hopBufSz depth) :
    Inv depth i2s { s.handler depth with pc := p } := by
  obtain ⟨harmed, -, hready, -⟩ := h.latched hirq
  have hcount := h.count
  have hfifo := h.fifo
  rw [if_pos hirq] at hcount
  rw [harmed] at hfifo
  -- `hop_buf` keeps its place in the stream
  have hbase : s.passed depth + (if Sys.emptied p then hopBufSz depth else 0) = s.base depth := by
    rw [hw.emptied, base]
  rw [Sys.handler_more hmore]
  refine ⟨?_, hfifo, ?_, ?_, hmore.le, fun _ => hmore, ?_, ?_, ?_, ?_, ?_, ?_, ?_, ?_, ?_, h.pushes,
    h.last⟩
  · show s.passed depth + (if Sys.emptied p then hopBufSz depth else 0) + (s.hopPos + depth) + 0 = _
    rw [hbase, ← hcount, Nat.add_zero, Nat.add_assoc]
  · intro _ k hk
    exact absurd hk (Nat.not_lt_zero k)
  · intro k hk
    show (s.extract depth depth).1 k =
      sample i2s (s.passed depth + (if Sys.emptied p then hopBufSz depth else 0) + k)
    rw [hbase]
    exact h.extracted hirq hmore.le k hk
  · intro hr
    rw [hready] at hr
    cases hr
  · rintro (hc | hc)
    · exact absurd hc hw.not_clear
    · exact absurd hc hw.not_arm
  · rintro ⟨⟩
  · rintro (hc | hc)
    · rw [hready] at hc
      cases hc
    · exact absurd hc hw.not_arm
  · intro ht
    rw [hw.not_taken] at ht
    cases ht
  · exact fun _ => hready
  · exact fun j hc => absurd hc (hw.not_copy j)
  · intro k hk
    rw [hw.copied] at hk
    exact h.copy k hk
  · intro hi
    rw [hw.idle] at hi
    exact h.handed hi

/-- The interrupt of the burst that completes the hop. -/
theorem Inv.handler_last (h : Inv depth i2s s) (hirq : s.irq = true) {p : Pc}
    (hw : Woken depth s p) (hfull : s.hopPos + depth = hopBufSz depth) :
    Inv depth i2s { s.handler depth with pc := p } := by
  obtain ⟨harmed, -, -, -⟩ := h.latched hirq
  have hcount := h.count
  have hfifo := h.fifo
  rw [if_pos hirq] at hcount
  rw [harmed] at hfifo
  -- `hop_buf` keeps its place in the stream
  have hbase : s.passed depth + (if Sys.emptied p then hopBufSz depth else 0) = s.base depth := by
    rw [hw.emptied, base]
  rw [Sys.handler_last h.hopPos_le hfull.ge]
  refine ⟨?_, ?_, ?_, ?_, le_refl _, ?_, fun _ _ => rfl, ?_, ?_, fun _ => harmed, fun _ => rfl,
    ?_, ?_, ?_, ?_, h.pushes, h.last⟩
  · show s.passed depth + (if Sys.emptied p then hopBufSz depth else 0) + hopBufSz depth + 0 = _
    rw [hbase, ← hcount, Nat.add_zero, ← hfull, Nat.add_assoc]
  · show s.fifoRead = depth * s.completed + if s.armed then s.inBatch else 0
    rw [harmed]
    exact hfifo
  · rintro (hc | hc)
    · rw [harmed] at hc
      cases hc
    · cases hc
  · intro k hk
    show (s.extract depth depth).1 k =
      sample i2s (s.passed depth + (if Sys.emptied p then hopBufSz depth else 0) + k)
    rw [hbase]
    exact h.extracted hirq hfull.le k (by rw [hfull]; exact hk)
  · rintro ⟨⟩
  · rintro (hc | hc)
    · exact absurd hc hw.not_clear
    · exact absurd hc hw.not_arm
  · rintro ⟨⟩
  · exact fun hc => absurd hc hw.not_arm
  · exact fun j hc => absurd hc (hw.not_copy j)
  · intro k hk
    rw [hw.copied] at hk
    exact h.copy k hk
  · intro hi
    rw [hw.idle] at hi
    exact h.handed hi

theorem Inv.interrupt (h : Inv depth i2s s) (hdvd : depth ∣ hopBufSz depth) :
    Inv depth i2s (s.interrupt depth) := by
  unfold Sys.interrupt
  split
  case isFalse => exact h
  case isTrue htaken =>
    have hirq := htaken.1
    have hfits := h.fits hdvd hirq
    rcases Nat.lt_or_ge (s.hopPos + depth) (hopBufSz depth) with hmore | hlast
    · exact h.handler_more hirq (h.woken hirq) hmore
    · exact h.handler_last hirq (h.woken hirq) (by omega)

/-- A place at which the main loop holds nothing. -/
theorem idle_spec (depth : ℕ) {p : Pc} (h : idle p = true) :
    emptied p = false ∧ taken p = false ∧ copied depth p = 0 ∧ p ≠ .clearReady ∧ p ≠ .dmaArm ∧
      ∀ j, p ≠ .copy j := by
  cases p <;> simp_all [idle, emptied, taken, copied]

/-- From one such place to another. -/
theorem Inv.idle (h : Inv depth i2s s) (hpc : idle s.pc = true) {p : Pc} (hp : Sys.idle p = true)
    (mie : Bool) : Inv depth i2s { s with pc := p, mie } := by
  obtain ⟨hemp, -, -, -, -, -⟩ := idle_spec depth hpc
  obtain ⟨hemp', htak', hcop', hclear', harm', hcopy'⟩ := idle_spec depth hp
  -- neither place is behind the reset of `hop_pos`
  have hbase : base depth { s with pc := p, mie } = s.base depth := by
    show s.passed depth + (if emptied p then hopBufSz depth else 0) = s.base depth
    rw [hemp', base, hemp]
  refine ⟨?_, h.fifo, ?_, ?_, h.hopPos_le, h.filling, ?_, ?_, ?_, ?_, ?_, ?_, ?_, ?_, ?_, h.pushes,
    h.last⟩
  · rw [hbase]
    exact h.count
  · rw [hbase]
    exact h.batch
  · rw [hbase]
    exact h.hop
  · intro hr _
    refine h.full hr (fun hc => ?_)
    rw [hc] at hpc
    cases hpc
  · rintro (hc | hc)
    · exact absurd hc hclear'
    · exact absurd hc harm'
  · intro hi
    obtain ⟨h1, h2, h3, -⟩ := h.latched hi
    exact ⟨h1, h2, h3, harm'⟩
  · rintro (hc | hc)
    · exact h.off (Or.inl hc)
    · exact absurd hc harm'
  · intro ht
    rw [htak'] at ht
    cases ht
  · exact fun hc => absurd hc harm'
  · exact fun j hc => absurd hc (hcopy' j)
  · intro k hk
    rw [hcop'] at hk
    exact absurd hk (Nat.not_lt_zero k)
  · intro hi
    rw [hp] at hi
    cases hi

/-- While `hop_ready` is set, no burst is under way and none is pending. -/
theorem Inv.quiet (h : Inv depth i2s s) (hr : s.hopReady = true ∨ s.pc = .dmaArm) :
    s.armed = false ∧ s.irq = false := by
  refine ⟨h.off hr, ?_⟩
  cases hi : s.irq
  · rfl
  · obtain ⟨-, -, hready, hpc⟩ := h.latched hi
    rcases hr with hr | hr
    · rw [hready] at hr
      cases hr
    · exact absurd hr hpc

/-- The main loop owns the hop and has not reset `hop_pos` yet: it copies. -/
theorem Inv.copying (h : Inv depth i2s s) (hr : s.hopReady = true) (hpc : emptied s.pc = false)
    {p : Pc} (hp : p = .resetPos ∨ ∃ j < hopBufSz depth, p = .copy j) {safeHop : ℕ → BitVec 8}
    {handedOver : ℕ} (hcopy : ∀ k < copied depth p, safeHop k = sample i2s (s.passed depth + k))
    (hhanded : depth * handedOver = s.passed depth + hopBufSz depth) :
    Inv depth i2s { s with safeHop, handedOver, pc := p } := by
  obtain ⟨-, hirq⟩ := h.quiet (Or.inl hr)
  have hfull := h.full hr (by rintro hc; rw [hc] at hpc; cases hpc)
  -- the copy comes before the reset of `hop_pos`
  have hemp : emptied p = false := by rcases hp with rfl | ⟨j, -, rfl⟩ <;> rfl
  have hne : p ≠ .clearReady ∧ p ≠ .dmaArm := by
    rcases hp with rfl | ⟨j, -, rfl⟩ <;> exact ⟨Pc.noConfusion, Pc.noConfusion⟩
  have hbase : base depth { s with safeHop, handedOver, pc := p } = s.base depth := by
    show s.passed depth + (if emptied p then hopBufSz depth else 0) = s.base depth
    rw [hemp, base, hpc]
  refine ⟨?_, h.fifo, ?_, ?_, h.hopPos_le, h.filling, fun _ _ => hfull, ?_, ?_, ?_, fun _ => hr,
    ?_, ?_, hcopy, fun _ => hhanded, h.pushes, h.last⟩
  · rw [hbase]
    exact h.count
  · rw [hbase]
    exact h.batch
  · rw [hbase]
    exact h.hop
  · rintro (hc | hc)
    · exact absurd hc hne.1
    · exact absurd hc hne.2
  · intro hi
    rw [hirq] at hi
    cases hi
  · exact fun _ => h.off (Or.inl hr)
  · exact fun hc => absurd hc hne.2
  · rintro j hc
    rcases hp with rfl | ⟨i, hi, rfl⟩
    · cases hc
    · cases hc
      exact hi

/-- Before the reset of `hop_pos`, the buffer is the hop that is not passed on. -/
theorem base_of_not_emptied (h : emptied s.pc = false) : s.base depth = s.passed depth := by
  rw [base, h]
  rfl

/-- After it, the buffer is for the next hop. -/
theorem base_of_emptied (h : emptied s.pc = true) :
    s.base depth = s.passed depth + hopBufSz depth := by
  rw [base, h]
  rfl

/-- The hop is taken. -/
theorem Inv.take (h : Inv depth i2s s) (hpc : s.pc = .retest) (hr : s.hopReady = true) :
    Inv depth i2s { s with pc := .copy 0, handedOver := s.completed } := by
  obtain ⟨-, hirq⟩ := h.quiet (Or.inl hr)
  have hcount := h.count
  rw [hirq, base_of_not_emptied (by rw [hpc]; rfl),
    h.full hr (by rw [hpc]; exact Pc.noConfusion)] at hcount
  exact h.copying hr (by rw [hpc]; rfl) (Or.inr ⟨0, hopBufSz_pos depth, rfl⟩)
    (fun k hk => absurd hk (Nat.not_lt_zero k)) hcount.symm

/-- One sample is copied. -/
theorem Inv.copySample (h : Inv depth i2s s) {j : ℕ} (hpc : s.pc = .copy j) :
    Inv depth i2s { s with
      safeHop := Function.update s.safeHop j (s.hopBuf j)
      pc := if j + 1 < hopBufSz depth then .copy (j + 1) else .resetPos } := by
  have hr := h.ready (by rw [hpc]; rfl)
  have hemp : emptied s.pc = false := by rw [hpc]; rfl
  have hj := h.inHop j hpc
  have hfull := h.full hr (by rw [hpc]; exact Pc.noConfusion)
  have hhop := h.hop j (by omega)
  -- the sample just copied, and those before it
  have hcopy : ∀ k < j + 1,
      Function.update s.safeHop j (s.hopBuf j) k = sample i2s (s.passed depth + k) := by
    intro k hk
    by_cases hkj : k = j
    · rw [hkj, Function.update_self, hhop, base_of_not_emptied hemp]
    · rw [Function.update_of_ne hkj]
      refine h.copy k ?_
      rw [hpc]
      exact lt_of_le_of_ne (Nat.le_of_lt_succ hk) hkj
  have hhanded := h.handed (by rw [hpc]; rfl)
  by_cases hmore : j + 1 < hopBufSz depth
  · rw [if_pos hmore]
    exact h.copying hr hemp (Or.inr ⟨j + 1, hmore, rfl⟩) hcopy hhanded
  · -- the last sample
    rw [if_neg hmore]
    have hlen : hopBufSz depth = j + 1 := by omega
    exact h.copying hr hemp (Or.inl rfl) (fun k hk => hcopy k (lt_of_lt_of_eq hk hlen)) hhanded

/-- `hop_pos` is reset: the buffer is for the next hop. -/
theorem Inv.resetPos (h : Inv depth i2s s) (hpc : s.pc = .resetPos) :
    Inv depth i2s { s with hopPos := 0, pc := .clearReady } := by
  have hpos := hopBufSz_pos depth
  have hr := h.ready (by rw [hpc]; rfl)
  obtain ⟨harmed, hirq⟩ := h.quiet (Or.inl hr)
  have hfull := h.full hr (by rw [hpc]; exact Pc.noConfusion)
  have hcount := h.count
  have hcopy := h.copy
  have hhanded := h.handed (by rw [hpc]; rfl)
  rw [hpc] at hcopy
  -- all that has been counted is passed on or in this hop
  rw [hirq, base_of_not_emptied (by rw [hpc]; rfl), hfull] at hcount
  refine ⟨?_, h.fifo, ?_, ?_, Nat.zero_le _, fun _ => hpos, ?_, fun _ => rfl, ?_, fun _ => harmed,
    fun _ => hr, ?_, ?_, hcopy, fun _ => hhanded, h.pushes, h.last⟩
  · show s.passed depth + hopBufSz depth + 0 + (if s.irq then depth else 0) = _
    rw [hirq]
    exact hcount
  · rintro (hc | hc)
    · rw [harmed] at hc
      cases hc
    · rw [hirq] at hc
      cases hc
  · intro k hk
    exact absurd hk (Nat.not_lt_zero k)
  · exact fun _ hc => absurd rfl hc
  · intro hi
    rw [hirq] at hi
    cases hi
  · rintro ⟨⟩
  · rintro i ⟨⟩

/-- `hop_ready` is cleared; the DMA is still off. -/
theorem Inv.clearReady (h : Inv depth i2s s) (hpc : s.pc = .clearReady) :
    Inv depth i2s { s with hopReady := false, pc := .dmaArm } := by
  have hpos := hopBufSz_pos depth
  obtain ⟨harmed, hirq⟩ := h.quiet (Or.inl (h.ready (by rw [hpc]; rfl)))
  have hreset := h.reset (Or.inl hpc)
  have hcopy := h.copy
  have hhanded := h.handed (by rw [hpc]; rfl)
  rw [hpc] at hcopy
  -- the buffer is that of the next hop already
  have hbase : base depth { s with hopReady := false, pc := .dmaArm } = s.base depth := by
    rw [base_of_emptied (s := s) (by rw [hpc]; rfl)]
    rfl
  refine ⟨?_, h.fifo, ?_, ?_, h.hopPos_le, ?_, ?_, fun _ => hreset, ?_, fun _ => harmed, ?_,
    fun _ => rfl, ?_, hcopy, fun _ => hhanded, h.pushes, h.last⟩
  · rw [hbase]
    exact h.count
  · rw [hbase]
    exact h.batch
  · rw [hbase]
    exact h.hop
  · intro _
    show s.hopPos < hopBufSz depth
    omega
  · rintro ⟨⟩
  · intro hi
    rw [hirq] at hi
    cases hi
  · rintro ⟨⟩
  · rintro i ⟨⟩

/-- The DMA is armed: the next burst begins. -/
theorem Inv.arm (h : Inv depth i2s s) (hpc : s.pc = .dmaArm) :
    Inv depth i2s { s.dmaArm with pc := .push } := by
  obtain ⟨harmed, hirq⟩ := h.quiet (Or.inr hpc)
  have hready := h.not_ready hpc
  have hcopy := h.copy
  have hhanded := h.handed (by rw [hpc]; rfl)
  have hfifo := h.fifo
  rw [hpc] at hcopy
  rw [harmed] at hfifo
  have hbase : base depth { s.dmaArm with pc := .push } = s.base depth := by
    rw [base_of_emptied (s := s) (by rw [hpc]; rfl)]
    rfl
  refine ⟨?_, hfifo, ?_, ?_, h.hopPos_le, h.filling, ?_, ?_, ?_, ?_, ?_, ?_, ?_, hcopy,
    fun _ => hhanded, h.pushes, h.last⟩
  · rw [hbase]
    exact h.count
  · -- the batch is empty
    intro _ k hk
    exact absurd hk (Nat.not_lt_zero k)
  · rw [hbase]
    exact h.hop
  · intro hr
    have hr' : s.hopReady = true := hr
    rw [hready] at hr'
    cases hr'
  · rintro (hc | hc) <;> cases hc
  · intro hi
    have hi' : s.irq = true := hi
    rw [hirq] at hi'
    cases hi'
  · rintro (hc | hc)
    · have hr' : s.hopReady = true := hc
      rw [hready] at hr'
      cases hr'
    · cases hc
  · rintro ⟨⟩
  · rintro ⟨⟩
  · rintro i ⟨⟩

/-- The hop is passed on. -/
theorem Inv.push (h : Inv depth i2s s) (hpc : s.pc = .push) :
    Inv depth i2s { s with
      pushed := s.pushed ++ [(s.handedOver, (List.range (hopBufSz depth)).map s.safeHop)]
      pc := .test } := by
  have hcopy := h.copy
  have hhanded := h.handed (by rw [hpc]; rfl)
  rw [hpc] at hcopy
  -- what was copied is the hop
  have hbuffer : (List.range (hopBufSz depth)).map s.safeHop =
      (List.range (hopBufSz depth)).map fun k => sample i2s (s.passed depth + k) := by
    refine List.map_congr_left (fun k hk => hcopy k ?_)
    exact List.mem_range.mp hk
  have hpassed : passed depth { s with
      pushed := s.pushed ++ [(s.handedOver, (List.range (hopBufSz depth)).map s.safeHop)]
      pc := .test } = s.passed depth + hopBufSz depth := by
    simp only [passed, List.length_append, List.length_singleton, Nat.mul_succ]
  -- the passed samples now end where the buffer begins
  have hbase : base depth { s with
      pushed := s.pushed ++ [(s.handedOver, (List.range (hopBufSz depth)).map s.safeHop)]
      pc := .test } = s.base depth := by
    rw [base_of_emptied (s := s) (by rw [hpc]; rfl), ← hpassed]
    rfl
  refine ⟨?_, h.fifo, ?_, ?_, h.hopPos_le, h.filling, ?_, ?_, ?_, ?_, ?_, ?_, ?_, ?_, ?_, ?_, ?_⟩
  · rw [hbase]
    exact h.count
  · rw [hbase]
    exact h.batch
  · rw [hbase]
    exact h.hop
  · intro hr _
    exact h.full hr (by rw [hpc]; exact Pc.noConfusion)
  · rintro (hc | hc) <;> cases hc
  · intro hi
    obtain ⟨h1, h2, h3, -⟩ := h.latched hi
    exact ⟨h1, h2, h3, Pc.noConfusion⟩
  · rintro (hc | hc)
    · exact h.off (Or.inl hc)
    · cases hc
  · rintro ⟨⟩
  · rintro ⟨⟩
  · rintro i ⟨⟩
  · intro k hk
    exact absurd hk (Nat.not_lt_zero k)
  · rintro ⟨⟩
  · rw [hpassed]
    simp only [List.flatMap_append, List.flatMap_singleton, h.pushes, hbuffer, List.range_add,
      List.map_append, List.map_map]
    rfl
  · intro p hp
    rw [List.getLast?_append, List.getLast?_singleton, Option.some_or, Option.mem_some_iff] at hp
    rw [hpassed, ← hp]
    exact hhanded

/-- The main loop, one program point after the other. -/
theorem Inv.cpu (h : Inv depth i2s s) : Inv depth i2s (s.cpu depth) := by
  unfold Sys.cpu
  cases hpc : s.pc
  case enableMie => exact h.idle (by rw [hpc]; rfl) rfl true
  case test =>
    refine h.idle (by rw [hpc]; rfl) ?_ s.mie
    split <;> rfl
  case wfi => exact h.idle (by rw [hpc]; rfl) rfl s.mie
  case asleep =>
    simp only
    split
    · exact h.idle (by rw [hpc]; rfl) rfl s.mie
    · exact h
  case retest =>
    simp only
    split
    case isFalse => exact h.idle (by rw [hpc]; rfl) rfl s.mie
    case isTrue hr => exact h.take hpc hr
  case copy j => exact h.copySample hpc
  case resetPos => exact h.resetPos hpc
  case clearReady => exact h.clearReady hpc
  case dmaArm => exact h.arm hpc
  case push => exact h.push hpc

theorem Inv.step (h : Inv depth i2s s) (hdvd : depth ∣ hopBufSz depth) (e : Event) :
    Inv depth i2s (s.step depth i2s e) := by
  cases e
  case word => exact h.word
  case complete => exact h.complete
  case irq => exact h.interrupt hdvd
  case cpu => exact h.cpu

/-- The bursts completed when the main loop took the last hop it has passed on. -/
def lastHandOver (s : Sys) : ℕ := (s.pushed.getLast?.map Prod.fst).getD 0

theorem Inv.lastHandOver (h : Inv depth i2s s) :
    depth * Sys.lastHandOver s = s.passed depth := by
  have hlast := h.last
  unfold Sys.lastHandOver
  cases hp : s.pushed.getLast? with
  | none =>
    rw [List.getLast?_eq_none_iff] at hp
    rw [passed, hp]
    rfl
  | some p => exact hlast p hp

/-- **Conservation**, in every run: the buffers passed to the engine, one after the other, are the
samples of all bursts completed up to the last hand-over, and the bursts are the words of the
FIFO. -/
theorem conservation (depth : ℕ) (hdvd : depth ∣ hopBufSz depth) (i2s : ℕ → BitVec 32)
    (e : ℕ → Event) (n : ℕ) :
    let s := run depth i2s e n
    s.pushed.flatMap Prod.snd = (List.range (depth * s.lastHandOver)).map (sample i2s) ∧
      s.fifoRead = depth * s.completed + if s.armed then s.inBatch else 0 := by
  have h : Inv depth i2s (run depth i2s e n) :=
    trace_invariant (Inv depth i2s) (Inv.init depth i2s) (fun n h => h.step hdvd (e n)) n
  refine ⟨?_, h.fifo⟩
  rw [h.lastHandOver]
  exact h.pushes

/-- Bursts of 8 words, the handler, and three steps of the main loop, over and over. -/
def byTurns (n : ℕ) : Event :=
  if n % 13 < 8 then .word
  else if n % 13 = 8 then .complete
  else if n % 13 = 9 then .irq
  else .cpu

theorem conservation_byTurns :
    let s := run 8 (BitVec.ofNat 32) byTurns 20000
    s.pushed.flatMap Prod.snd =
        (List.range (8 * s.lastHandOver)).map (sample (BitVec.ofNat 32)) ∧
      s.fifoRead = 8 * s.completed + if s.armed then s.inBatch else 0 :=
  conservation 8 ⟨200, rfl⟩ (BitVec.ofNat 32) byTurns 20000

/-! ## Bursts -/

/-- A burst and its handler. -/
def burst (depth i : ℕ) : Event := if i < depth then .word else if i = depth then .complete else .irq

/-- Where a burst begins: `k` of them are in the hop. -/
structure Listening (depth k : ℕ) (pc : Pc) (s : Sys) : Prop where
  en : s.en = true
  armed : s.armed = true
  inBatch : s.inBatch = 0
  irq : s.irq = false
  mie : s.mie = true
  hopPos : s.hopPos = depth * k
  hopReady : s.hopReady = false
  pc : s.pc = pc

/-- What a handler leaves of the place of the main loop. -/
def wake (p : Pc) : Pc := if p = .asleep then .retest else p

variable {k : ℕ} {pc : Pc}

/-- A burst up to its interrupt. -/
theorem Listening.words (h : Listening depth k pc s) (i2s : ℕ → BitVec 32) :
    let t := trace (step depth i2s) s (burst depth) (depth + 1)
    t.irq = true ∧ t.mie = true ∧ t.hopPos = depth * k ∧ t.hopReady = false ∧ t.pc = pc := by
  have hwords : ∀ i ≤ depth, let t := trace (step depth i2s) s (burst depth) i
      t.en = true ∧ t.armed = true ∧ t.inBatch = i ∧ t.mie = true ∧ t.hopPos = depth * k ∧
        t.hopReady = false ∧ t.pc = pc := by
    intro i hi
    induction i with
    | zero => exact ⟨h.en, h.armed, h.inBatch, h.mie, h.hopPos, h.hopReady, h.pc⟩
    | succ i ih =>
      obtain ⟨h1, h2, h3, h4, h5, h6, h7⟩ := ih (by omega)
      rw [trace_succ]
      generalize trace (step depth i2s) s (burst depth) i = t at *
      have hword : burst depth i = .word := if_pos (by omega)
      rw [hword]
      unfold Sys.step Sys.word
      simp only
      rw [if_pos ⟨h1, h2, by omega⟩]
      exact ⟨h1, h2, congrArg (· + 1) h3, h4, h5, h6, h7⟩
  obtain ⟨h1, h2, h3, h4, h5, h6, h7⟩ := hwords depth (le_refl _)
  rw [trace_succ]
  generalize trace (step depth i2s) s (burst depth) depth = t at *
  have hend : burst depth depth = .complete := by
    unfold burst
    rw [if_neg (lt_irrefl _), if_pos rfl]
  rw [hend]
  unfold Sys.step Sys.complete
  simp only
  rw [if_pos ⟨h1, h2, h3⟩]
  exact ⟨rfl, h4, h5, h6, h7⟩

theorem burst_irq : burst depth (depth + 1) = .irq := by
  unfold burst
  rw [if_neg (by omega), if_neg (by omega)]

/-- The burst that completes the hop. -/
theorem Listening.last (h : Listening depth k pc s) (hlast : depth * (k + 1) = hopBufSz depth) :
    let t := trace (step depth i2s) s (burst depth) (depth + 2)
    t.pc = wake pc ∧ t.hopReady = true ∧ t.en = false ∧ t.irq = false := by
  obtain ⟨h1, h2, h3, h4, h5⟩ := h.words i2s
  rw [Nat.mul_succ] at hlast
  rw [trace_succ, burst_irq]
  generalize trace (step depth i2s) s (burst depth) (depth + 1) = t at *
  unfold Sys.step Sys.interrupt
  simp only
  rw [if_pos ⟨h1, h2⟩, handler_last (by omega) (by omega), h5]
  exact ⟨rfl, rfl, rfl, rfl⟩

/-- A burst that wakes the main loop, which finds the hop incomplete and goes back to sleep. -/
def turn (i : ℕ) : Event := if i < 10 then burst 8 i else .cpu

theorem run_succ (e : ℕ → Event) (n : ℕ) :
    run depth i2s e (n + 1) = (run depth i2s e n).step depth i2s (e n) := rfl

end KwsSoc.Firmware.Hop.Sys
