import KwsSoc.Firmware.Drift

/-! # What is lost, and what is printed

The branch for audio loss reads `bytes_written` once more for the number it prints, and again to
move the threshold. `Monitored` is the main loop with these reads apart and with its windows kept in
a list. Without a line between them, windows are contiguous or overlap. A line counts from the
threshold, which has already moved a step beyond the previous window, so it leaves out the step and
what is counted while it is printed: `coverage_iff` has exact accounts for exactly the runs without
a line between two windows. -/

namespace KwsSoc.Firmware.Capture

open SyncMachine

/-- A window: bytes `start` to `stop` of the stream, and the number printed before it, if any. -/
structure Window where
  start : ℕ
  stop : ℕ
  printed : Option ℤ

/-- The main loop with its list of windows. `lost` is what the branch for audio loss has computed
and printed, before it moves the threshold. -/
structure Monitored where
  sys : Sys
  lost : Option (BitVec 32)
  windows : List Window

namespace Monitored

variable (b : Build) (stream : ℕ → BitVec 8)

def init : Monitored := ⟨.init b, none, []⟩

/-- The window that a copy begins with. -/
def window (s : Sys) (printed : Option ℤ) : Window :=
  ⟨s.ghost.nextAbs - b.clip, s.ghost.nextAbs, printed⟩

/-- One action of the main loop. -/
def cpu (m : Monitored) : Monitored :=
  match m.sys.pc with
  | .check =>
    { m with
      sys := m.sys.cpu b
      windows :=
        if m.sys.lag > b.clip then m.windows else m.windows ++ [window b (m.sys.cpu b) none] }
  | .resync =>
    match m.lost with
    -- `uint32_t lost = …` and the line
    | none =>
      { m with lost := some (m.sys.bytesWritten - m.sys.bytesAtNextInference - .ofNat 32 b.clip) }
    -- `bytes_at_next_inference = bytes_written`
    | some lost =>
      ⟨m.sys.cpu b, none, m.windows ++ [window b (m.sys.cpu b) (some lost.toInt)]⟩
  | _ => { m with sys := m.sys.cpu b }

/-- One event. -/
def step (m : Monitored) : Event → Monitored
  | .cpu => m.cpu b
  | e => { m with sys := m.sys.step b stream e }

/-- The states of a run. -/
def run (e : ℕ → Event) : ℕ → Monitored := trace (step b stream) (init b) e

end Monitored

/-! ## Windows in a row -/

/-- What holds of each window and the next: without a line they leave nothing between them, with one
they leave more than it says. -/
def Window.Follows (w w' : Window) : Prop :=
  (w'.printed = none → w'.start ≤ w.stop) ∧
    ∀ lost, w'.printed = some lost → lost < ((w'.start - w.stop : ℕ) : ℤ)

/-- A counter read without its sign is no more than the true value. -/
theorem bmod_le {x : ℤ} (hx : 0 ≤ x) : Int.bmod x (2 ^ 32) ≤ x := by
  rw [Int.bmod_def]
  split <;> omega

namespace Monitored

variable {b : Build} {stream : ℕ → BitVec 8} {m : Monitored} {minStep : BitVec 32}

/-- Between the step of an iteration and the copy of the next. -/
def Between (m : Monitored) : Prop :=
  m.sys.pc = .wait ∨ m.sys.pc = .iterStart ∨ m.sys.pc = .check ∨ m.sys.pc = .resync

/-- **Invariant of the windows.** -/
structure Inv (b : Build) (stream : ℕ → BitVec 8) (m : Monitored) : Prop where
  hw : Sys.HwInv b stream m.sys
  positions : Sys.Positions b m.sys
  chain : m.windows.IsChain Window.Follows
  first : m.windows = [] → m.Between ∧ m.sys.ghost.nextAbs = b.clip
  between : m.Between → ∀ w ∈ m.windows.getLast?,
    w.stop < m.sys.ghost.nextAbs ∧ m.sys.ghost.nextAbs ≤ w.stop + b.clip
  body : ¬ m.Between → ∀ w ∈ m.windows.getLast?, w.stop = m.sys.ghost.nextAbs
  loss : m.sys.pc = .resync → m.sys.ghost.nextAbs + b.clip < m.sys.ghost.published
  lost : ∀ v, m.lost = some v → m.sys.pc = .resync ∧
    v.toInt + m.sys.ghost.nextAbs + b.clip ≤ m.sys.ghost.published

theorem Inv.init (b : Build) (stream : ℕ → BitVec 8) : Inv b stream (Monitored.init b) := by
  refine ⟨Sys.HwInv.init b stream, Sys.Positions.init b, List.IsChain.nil, ?_, ?_, ?_, ?_, ?_⟩
  · exact fun _ => ⟨Or.inl rfl, rfl⟩
  · intro _ w hw
    cases hw
  · intro hnot
    exact absurd (Or.inl rfl) hnot
  · rintro ⟨⟩
  · rintro v ⟨⟩

/-- The DMA and the handler leave the windows alone. -/
theorem Inv.capture (h : Inv b stream m) (e : Event) (he : e ≠ .cpu) :
    Inv b stream (m.step b stream e) := by
  have hstep : m.step b stream e = { m with sys := m.sys.step b stream e } := by
    cases e
    case cpu => exact absurd rfl he
    all_goals rfl
  have hpub := Sys.published_step b stream m.sys e
  -- only the main loop moves the program counter and the threshold
  have hsame : (m.sys.step b stream e).pc = m.sys.pc ∧
      (m.sys.step b stream e).ghost.nextAbs = m.sys.ghost.nextAbs := by
    cases e
    case cpu => exact absurd rfl he
    case word =>
      unfold Sys.step Sys.word
      simp only
      split <;> exact ⟨rfl, rfl⟩
    case irq =>
      unfold Sys.step Sys.irq
      simp only
      split <;> exact ⟨rfl, rfl⟩
  obtain ⟨hpc, hnext⟩ := hsame
  rw [hstep]
  refine ⟨h.hw.step e, h.positions.step h.hw e, h.chain, ?_, ?_, ?_, ?_, ?_⟩
  all_goals
    simp only [Between, hpc, hnext]
  · exact h.first
  · exact h.between
  · exact h.body
  · intro hr
    exact lt_of_lt_of_le (h.loss hr) hpub
  · intro v hv
    obtain ⟨hr, hle⟩ := h.lost v hv
    refine ⟨hr, le_trans hle ?_⟩
    exact Int.ofNat_le.mpr hpub

/-- What the check finds is there. -/
theorem lag_le_ahead {s : Sys} (hw : Sys.HwInv b stream s) (hp : Sys.Positions b s)
    (hpc : s.pc ≠ .wait) : s.lag ≤ s.ahead := by
  rw [Sys.lag_eq hw.counted hp.next]
  exact bmod_le (Sys.ahead_nonneg hp hpc)

/-- What is printed is at least the step too little. -/
theorem toInt_lost_le {s : Sys} (hw : Sys.HwInv b stream s) (hp : Sys.Positions b s)
    (hloss : s.ghost.nextAbs + b.clip < s.ghost.published) :
    (s.bytesWritten - s.bytesAtNextInference - .ofNat 32 b.clip).toInt + s.ghost.nextAbs + b.clip ≤
      s.ghost.published := by
  have hdiff : (s.bytesWritten - s.bytesAtNextInference - BitVec.ofNat 32 b.clip).toInt =
      Int.bmod ((s.ghost.published : ℤ) - s.ghost.nextAbs - b.clip) (2 ^ 32) := by
    rw [hw.counted, hp.next, BitVec.toInt_sub, BitVec.toInt_sub, BitVec.toInt_ofNat',
      BitVec.toInt_ofNat', BitVec.toInt_ofNat', Int.sub_bmod_bmod, Int.bmod_sub_bmod,
      sub_right_comm, Int.sub_bmod_bmod, sub_sub, Int.bmod_sub_bmod]
    congr 1
    ring
  have hle := bmod_le (by omega : (0 : ℤ) ≤ (s.ghost.published : ℤ) - s.ghost.nextAbs - b.clip)
  rw [hdiff]
  omega

/-- **One more window**: it follows the last one. -/
theorem chain_snoc {ws : List Window} {w' : Window} (h : ws.IsChain Window.Follows)
    (hw' : ∀ w ∈ ws.getLast?, w.Follows w') : (ws ++ [w']).IsChain Window.Follows := by
  rw [List.isChain_append]
  refine ⟨h, List.isChain_singleton w', ?_⟩
  intro w hw v hv
  rw [List.head?_cons, Option.mem_some_iff] at hv
  rw [← hv]
  exact hw' w hw

/-- A step is at least a byte and at most a clip. -/
theorem stepBytes_bounds (hpol : b.policy = .dynamic minStep) (hmin : 0 < minStep.toNat)
    (a : BitVec 32) : 0 < (b.stepBytes a).toNat ∧ (b.stepBytes a).toNat ≤ b.clip := by
  have hpos : 0 < b.clip := Nat.mul_pos (by decide) (by rcases b.decimate_eq with h | h <;> omega)
  have hclip := b.toNat_clip
  rw [Build.stepBytes, hpol]
  simp only [gt_iff_lt, BitVec.lt_def, hclip]
  split <;> split <;> omega

/-- Nothing has been printed outside the branch for audio loss. -/
theorem Inv.not_lost (h : Inv b stream m) (hpc : m.sys.pc ≠ .resync) : m.lost = none := by
  cases hl : m.lost with
  | none => rfl
  | some v => exact absurd (h.lost v hl).1 hpc

/-- An action between two copies that neither fires the check nor begins a copy. -/
theorem Inv.wait_on (h : Inv b stream m) {s' : Sys} (hw : Sys.HwInv b stream s')
    (hp : Sys.Positions b s') (hpc : m.Between) (hghost : s'.ghost = m.sys.ghost)
    (hpc' : s'.pc = .wait ∨ s'.pc = .iterStart ∨ s'.pc = .check) (hlost : m.lost = none) :
    Inv b stream { m with sys := s' } := by
  have hb : Between { m with sys := s' } := by
    rcases hpc' with h1 | h1 | h1
    · exact Or.inl h1
    · exact Or.inr (Or.inl h1)
    · exact Or.inr (Or.inr (Or.inl h1))
  refine ⟨hw, hp, h.chain, ?_, ?_, fun hnot => absurd hb hnot, ?_, ?_⟩
  · intro hnil
    rw [hghost]
    exact ⟨hb, (h.first hnil).2⟩
  · intro _
    rw [hghost]
    exact h.between hpc
  · intro hr
    have hr' : s'.pc = .resync := hr
    rw [hr'] at hpc'
    rcases hpc' with h1 | h1 | h1 <;> cases h1
  · intro v hv
    rw [hlost] at hv
    cases hv

/-- An action of the copy or after it, before the step. -/
theorem Inv.work_on (h : Inv b stream m) {s' : Sys} (hw : Sys.HwInv b stream s')
    (hp : Sys.Positions b s') (hpc : ¬ m.Between) (hghost : s'.ghost = m.sys.ghost)
    (hpc' : (∃ j, s'.pc = .copy j) ∨ s'.pc = .infer ∨ s'.pc = .advance) (hlost : m.lost = none) :
    Inv b stream { m with sys := s' } := by
  have hnot : ¬ Between { m with sys := s' } := by
    rintro (h1 | h1 | h1 | h1) <;> simp only at h1 <;> rw [h1] at hpc' <;>
      rcases hpc' with ⟨j, h2⟩ | h2 | h2 <;> cases h2
  refine ⟨hw, hp, h.chain, ?_, fun hb => absurd hb hnot, ?_, ?_, ?_⟩
  · intro hnil
    exact absurd (h.first hnil).1 hpc
  · intro _
    rw [hghost]
    exact h.body hpc
  · intro hr
    exact absurd (Or.inr (Or.inr (Or.inr hr))) hnot
  · intro v hv
    rw [hlost] at hv
    cases hv

theorem getLast?_snoc {ws : List Window} {w w' : Window} (h : w ∈ (ws ++ [w']).getLast?) :
    w = w' := by
  rw [List.getLast?_append, List.getLast?_singleton, Option.some_or, Option.mem_some_iff] at h
  exact h.symm

/-- An action that begins a copy: its window follows the last one. -/
theorem Inv.copy_on {s' : Sys} {w' : Window} (hw : Sys.HwInv b stream s') (hp : Sys.Positions b s')
    (hchain : (m.windows ++ [w']).IsChain Window.Follows) (hpc : s'.pc = .copy 0)
    (hw' : w'.stop = s'.ghost.nextAbs) :
    Inv b stream ⟨s', none, m.windows ++ [w']⟩ := by
  have hnot : ¬ Between ⟨s', none, m.windows ++ [w']⟩ := by
    rintro (h1 | h1 | h1 | h1) <;> rw [hpc] at h1 <;> cases h1
  refine ⟨hw, hp, hchain, ?_, fun hb => absurd hb hnot, ?_, ?_, ?_⟩
  · intro hnil
    exact absurd hnil (List.append_ne_nil_of_right_ne_nil _ (List.cons_ne_nil _ _))
  · intro _ w hmem
    rw [getLast?_snoc hmem]
    exact hw'
  · intro hr
    rw [hpc] at hr
    cases hr
  · rintro v ⟨⟩

/-- The check at work: where it leads, and what it leaves. -/
theorem cpu_check {s : Sys} (hpc : s.pc = .check) :
    (s.cpu b).ghost.nextAbs = s.ghost.nextAbs ∧ (s.cpu b).ghost.published = s.ghost.published ∧
      (s.cpu b).pc = if s.lag > b.clip then .resync else .copy 0 := by
  unfold Sys.cpu
  simp only [hpc]
  exact ⟨trivial, trivial, trivial⟩

/-- The check finds more than a clip: the branch is taken. -/
theorem Inv.check_loss (h : Inv b stream m) (hpc : m.sys.pc = .check) (hloss : m.sys.lag > b.clip) :
    Inv b stream { m with sys := m.sys.cpu b } := by
  have hb : m.Between := Or.inr (Or.inr (Or.inl hpc))
  have hnone := h.not_lost (by simp [hpc])
  obtain ⟨hn, hpub, hpc'⟩ := cpu_check (b := b) hpc
  rw [if_pos hloss] at hpc'
  -- what the check finds has been published
  have hahead := lag_le_ahead h.hw h.positions (by simp [hpc])
  refine ⟨h.hw.cpu, h.positions.cpu h.hw, h.chain, ?_, ?_, ?_, ?_, ?_⟩
  · intro hnil
    simp only [hn]
    exact ⟨Or.inr (Or.inr (Or.inr hpc')), (h.first hnil).2⟩
  · intro _
    simp only [hn]
    exact h.between hb
  · intro hnot
    exact absurd (Or.inr (Or.inr (Or.inr hpc'))) hnot
  · intro _
    simp only [hn, hpub]
    unfold Sys.ahead at hahead
    omega
  · intro v hv
    simp only [hnone] at hv
    cases hv

/-- The check finds no loss: the copy of the next window begins. -/
theorem Inv.check_fits (h : Inv b stream m) (hpc : m.sys.pc = .check)
    (hloss : ¬ m.sys.lag > b.clip) :
    Inv b stream ⟨m.sys.cpu b, none, m.windows ++ [window b (m.sys.cpu b) none]⟩ := by
  obtain ⟨hn, -, hpc'⟩ := cpu_check (b := b) hpc
  rw [if_neg hloss] at hpc'
  refine copy_on h.hw.cpu (h.positions.cpu h.hw) (chain_snoc h.chain ?_) hpc' rfl
  intro w hmem
  obtain ⟨-, hle⟩ := h.between (Or.inr (Or.inr (Or.inl hpc))) w hmem
  have hclip := b.clip_le
  refine ⟨fun _ => ?_, ?_⟩
  · simp only [window, hn]
    omega
  · rintro v ⟨⟩

/-- The line is printed: it says at most what has been lost. -/
theorem Inv.print (h : Inv b stream m) (hpc : m.sys.pc = .resync) :
    Inv b stream { m with
      lost := some (m.sys.bytesWritten - m.sys.bytesAtNextInference - .ofNat 32 b.clip) } := by
  refine ⟨h.hw, h.positions, h.chain, h.first, h.between, h.body, h.loss, ?_⟩
  rintro v ⟨⟩
  exact ⟨hpc, toInt_lost_le h.hw h.positions (h.loss hpc)⟩

/-- The threshold moves to what has been counted by now. -/
theorem Inv.resync (h : Inv b stream m) (hpc : m.sys.pc = .resync) {lost : BitVec 32}
    (hl : m.lost = some lost) :
    Inv b stream ⟨m.sys.cpu b, none, m.windows ++ [window b (m.sys.cpu b) (some lost.toInt)]⟩ := by
  have hlt := h.loss hpc
  have hnext : (m.sys.cpu b).ghost.nextAbs = m.sys.ghost.published ∧
      (m.sys.cpu b).pc = .copy 0 := by
    unfold Sys.cpu
    simp only [hpc]
    exact ⟨trivial, trivial⟩
  obtain ⟨hn, hpc'⟩ := hnext
  obtain ⟨-, hle⟩ := h.lost lost hl
  refine copy_on h.hw.cpu (h.positions.cpu h.hw) (chain_snoc h.chain ?_) hpc' rfl
  intro w hmem
  obtain ⟨hstop, -⟩ := h.between (Or.inr (Or.inr (Or.inr hpc))) w hmem
  refine ⟨?_, ?_⟩
  · rintro ⟨⟩
  · rintro v ⟨⟩
    simp only [window, hn]
    omega

/-- The step of an iteration. -/
theorem Inv.advance (h : Inv b stream m) (hpol : b.policy = .dynamic minStep)
    (hmin : 0 < minStep.toNat) (hpc : m.sys.pc = .advance) :
    Inv b stream { m with sys := m.sys.cpu b } := by
  have hnot : ¬ m.Between := by
    rintro (h1 | h1 | h1 | h1) <;> rw [hpc] at h1 <;> cases h1
  have hnone := h.not_lost (by simp [hpc])
  obtain ⟨hpos, hle⟩ := stepBytes_bounds hpol hmin (m.sys.bytesWritten - m.sys.iterStartBw)
  have hnext : (m.sys.cpu b).ghost.nextAbs = m.sys.ghost.nextAbs +
        (b.stepBytes (m.sys.bytesWritten - m.sys.iterStartBw)).toNat ∧
      (m.sys.cpu b).pc = .wait := by
    unfold Sys.cpu
    simp only [hpc]
    exact ⟨trivial, trivial⟩
  obtain ⟨hn, hpc'⟩ := hnext
  -- back at the wait, the threshold ahead of the last window by the step
  have hb : Between { m with sys := m.sys.cpu b } := Or.inl hpc'
  refine ⟨h.hw.cpu, h.positions.cpu h.hw, h.chain, ?_, ?_, fun hnot' => absurd hb hnot', ?_, ?_⟩
  · intro hnil
    exact absurd (h.first hnil).1 hnot
  · intro _ w hmem
    have hstop := h.body hnot w hmem
    simp only [hn]
    omega
  · intro hr
    have hr' : (m.sys.cpu b).pc = .resync := hr
    rw [hpc'] at hr'
    cases hr'
  · intro v hv
    simp only [hnone] at hv
    cases hv

/-- The main loop, one program point after the other. -/
theorem Inv.cpu (hpol : b.policy = .dynamic minStep) (hmin : 0 < minStep.toNat)
    (h : Inv b stream m) : Inv b stream (m.cpu b) := by
  have hw' := h.hw.cpu
  have hp' := h.positions.cpu h.hw
  unfold Monitored.cpu
  -- between two copies, at the check, in the branch for audio loss, and in the body
  cases hpc : m.sys.pc
  case wait =>
    refine h.wait_on hw' hp' (Or.inl hpc) ?_ ?_ (h.not_lost (by simp [hpc]))
    all_goals
      unfold Sys.cpu
      simp only [hpc]
      split
    · rfl
    · rfl
    · exact Or.inl hpc
    · exact Or.inr (Or.inl rfl)
  case iterStart =>
    refine h.wait_on hw' hp' (Or.inr (Or.inl hpc)) ?_ ?_ (h.not_lost (by simp [hpc]))
    all_goals
      unfold Sys.cpu
      simp only [hpc]
    exact Or.inr (Or.inr trivial)
  case check =>
    by_cases hloss : m.sys.lag > b.clip
    · simp only [if_pos hloss]
      exact h.check_loss hpc hloss
    · simp only [if_neg hloss, h.not_lost (show m.sys.pc ≠ .resync by simp [hpc])]
      exact h.check_fits hpc hloss
  case resync =>
    cases hl : m.lost with
    | none => exact h.print hpc
    | some lost => exact h.resync hpc hl
  case copy j =>
    refine h.work_on hw' hp' ?_ ?_ ?_ (h.not_lost (by simp [hpc]))
    · rintro (h1 | h1 | h1 | h1) <;> rw [hpc] at h1 <;> cases h1
    all_goals
      unfold Sys.cpu
      simp only [hpc]
    split
    · exact Or.inl ⟨j + 1, rfl⟩
    · exact Or.inr (Or.inl rfl)
  case infer =>
    refine h.work_on hw' hp' ?_ ?_ ?_ (h.not_lost (by simp [hpc]))
    · rintro (h1 | h1 | h1 | h1) <;> rw [hpc] at h1 <;> cases h1
    all_goals
      unfold Sys.cpu
      simp only [hpc]
    exact Or.inr (Or.inr trivial)
  case advance => exact h.advance hpol hmin hpc

/-- The invariant holds in every run. -/
theorem inv_run (hpol : b.policy = .dynamic minStep) (hmin : 0 < minStep.toNat) (e : ℕ → Event)
    (n : ℕ) : Inv b stream (run b stream e n) := by
  refine trace_invariant (Inv b stream) (Inv.init b stream) (fun n h => ?_) n
  cases he : e n
  case cpu => exact h.cpu hpol hmin
  all_goals exact h.capture _ (by simp)

/-- As long as the main loop is not at the check, it only moves on. -/
theorem trace_quiet {f : ℕ → Event} {n : ℕ}
    (hq : ∀ k < n, f k = .cpu → (trace (Sys.step b stream) m.sys f k).pc ≠ .check ∧
      (trace (Sys.step b stream) m.sys f k).pc ≠ .resync) :
    trace (step b stream) m f n = { m with sys := trace (Sys.step b stream) m.sys f n } := by
  induction n with
  | zero => rfl
  | succ n ih =>
    rw [trace_succ, trace_succ, ih (fun k hk => hq k (by omega))]
    have hlast := hq n (Nat.lt_succ_self n)
    generalize trace (Sys.step b stream) m.sys f n = s at hlast
    cases hf : f n
    case cpu =>
      obtain ⟨hcheck, hresync⟩ := hlast hf
      show Monitored.cpu b _ = _
      unfold Monitored.cpu
      simp only
      rfl
    all_goals rfl

/-- An undisturbed iteration up to the end of the copy: one window. -/
theorem trace_window (hpc : m.sys.pc = .wait) (hready : 0 ≤ m.sys.lag)
    (hpass : m.sys.lag ≤ b.clip) :
    trace (step b stream) m (fun _ => .cpu) 8003 =
      ⟨trace (Sys.step b stream) m.sys (fun _ => .cpu) 8003, m.lost,
        m.windows ++ [⟨m.sys.ghost.nextAbs - b.clip, m.sys.ghost.nextAbs, none⟩]⟩ := by
  have hstart := Sys.cpu_start (b := b) hpc hready
  have hcheck := @Sys.cpu_check b stream m.sys hpc hready hpass
  have hthree : trace (step b stream) m (fun _ => .cpu) 3 =
      ⟨trace (Sys.step b stream) m.sys (fun _ => .cpu) 3, m.lost,
        m.windows ++ [⟨m.sys.ghost.nextAbs - b.clip, m.sys.ghost.nextAbs, none⟩]⟩ := by
    have h1 : m.cpu b = { m with sys := { m.sys with pc := .iterStart } } := by
      unfold Monitored.cpu
      simp only [hpc, hstart]
    have h2 : Monitored.cpu b { m with sys := { m.sys with pc := .iterStart } } =
        { m with sys := { m.sys with iterStartBw := m.sys.bytesWritten, pc := .check } } := rfl
    rw [hcheck]
    show ((m.cpu b).cpu b).cpu b = _
    rw [h1, h2]
    unfold Monitored.cpu Sys.cpu
    simp only [Sys.lag] at hpass ⊢
    simp only [gt_iff_lt, if_neg (not_lt.mpr hpass)]
    rfl
  have hcopy := fun k (hk : k < 8000) => (@Sys.cpu_copy b stream
    (trace (Sys.step b stream) m.sys (fun _ => .cpu) 3) (by rw [hcheck]) k hk.le).1
  have hsum : 3 + 8000 = 8003 := rfl
  rw [← hsum, trace_add, trace_add, hthree]
  refine trace_quiet (m := ⟨_, _, _⟩) (fun k hk _ => ?_)
  have hpc' := hcopy k hk
  rw [if_pos hk] at hpc'
  constructor <;> intro hc
  · rw [hpc'] at hc
    cases hc
  · rw [hpc'] at hc
    cases hc

theorem trace_bursts (n : ℕ) :
    trace (step b stream) m (Sys.bursts b) n =
      { m with sys := trace (Sys.step b stream) m.sys (Sys.bursts b) n } := by
  refine trace_quiet (fun k _ hcpu => ?_)
  unfold Sys.bursts at hcpu
  split at hcpu <;> cases hcpu

/-- Where the main loop and its windows are, between two bursts. -/
structure Reached (b : Build) (stream : ℕ → BitVec 8) (m : Monitored) (pc : Pc)
    (published nextAbs started : ℕ) (windows : List Window) : Prop where
  hw : Sys.HwInv b stream m.sys
  positions : Sys.Positions b m.sys
  pc : m.sys.pc = pc
  inBurst : m.sys.inBurst = 0
  published : m.sys.ghost.published = published
  nextAbs : m.sys.ghost.nextAbs = nextAbs
  started : m.sys.iterStartBw = .ofNat 32 started
  lost : m.lost = none
  windows : m.windows = windows

variable {pc : Pc} {P N S : ℕ} {ws : List Window}

theorem Reached.init (b : Build) (stream : ℕ → BitVec 8) :
    Reached b stream (Monitored.init b) .wait 0 b.clip 0 [] :=
  ⟨.init b stream, .init b, rfl, rfl, rfl, rfl, rfl, rfl, rfl⟩

/-- Both invariants along a stretch of events. -/
theorem trace_inv {s : Sys} (hw : Sys.HwInv b stream s) (hp : Sys.Positions b s) (f : ℕ → Event)
    (n : ℕ) : Sys.HwInv b stream (trace (Sys.step b stream) s f n) ∧
      Sys.Positions b (trace (Sys.step b stream) s f n) :=
  trace_invariant (fun s => Sys.HwInv b stream s ∧ Sys.Positions b s) ⟨hw, hp⟩
    (fun n h => ⟨h.1.step (f n), h.2.step h.1 (f n)⟩) n

theorem Reached.lag (h : Reached b stream m pc P N S ws) (hle : P < N + 2 ^ 31) :
    m.sys.lag = (P : ℤ) - N := by
  have hahead : m.sys.ahead = (P : ℤ) - N := by rw [Sys.ahead, h.published, h.nextAbs]
  rw [Sys.lag_eq_ahead h.hw h.positions (by omega), hahead]

/-- `k` bursts. -/
theorem Reached.bursts (h : Reached b stream m pc P N S ws) (k : ℕ) :
    Reached b stream (trace (step b stream) m (Sys.bursts b) ((b.burstWords + 1) * k)) pc
      (P + b.burstBytes * k) N S ws := by
  have hpos : 0 < b.burstWords + 1 := Nat.succ_pos _
  have ha := @Sys.afterBursts b stream m.sys h.inBurst ((b.burstWords + 1) * k)
  obtain ⟨hw, hp⟩ := trace_inv h.hw h.positions (Sys.bursts b) ((b.burstWords + 1) * k)
  rw [trace_bursts]
  refine ⟨hw, hp, ha.pc.trans h.pc, ?_, ?_, ha.nextAbs.trans h.nextAbs,
    ha.iterStartBw.trans h.started, h.lost, h.windows⟩
  · rw [ha.inBurst, Nat.mul_mod_right]
  · rw [ha.published, h.published, Nat.mul_div_cancel_left _ hpos]

/-- A window, when the check passes. -/
theorem Reached.window (h : Reached b stream m .wait P N S ws) (hge : N ≤ P) (hle : P ≤ N + b.clip) :
    Reached b stream (trace (step b stream) m (fun _ => .cpu) 8003) .infer P N P
      (ws ++ [⟨N - b.clip, N, none⟩]) := by
  have hclip := b.clip_le
  have hlag := h.lag (by omega)
  have hready : 0 ≤ m.sys.lag := by omega
  have hpass : m.sys.lag ≤ b.clip := by omega
  obtain ⟨hpc, -, hn, hi, -⟩ := @Sys.cpu_window b stream m.sys h.pc hready hpass
  obtain ⟨hcap, hin, -⟩ := @Sys.cpu_captured b stream m.sys 8003
  obtain ⟨hw, hp⟩ := trace_inv h.hw h.positions (fun _ => .cpu) 8003
  have hin₀ := h.inBurst
  have hpub := h.published
  rw [trace_window h.pc hready hpass]
  generalize trace (Sys.step b stream) m.sys (fun _ => .cpu) 8003 = t at *
  refine ⟨hw, hp, hpc, hin.trans h.inBurst, ?_, hn.trans h.nextAbs, ?_, h.lost, ?_⟩
  · unfold Sys.captured at hcap
    simp only
    omega
  · rw [hi, h.hw.counted, hpub]
  · rw [h.windows, h.nextAbs]

/-- The end of an iteration. -/
theorem Reached.advance (h : Reached b stream m .infer P N S ws) :
    Reached b stream (trace (step b stream) m (fun _ => .cpu) 2) .wait P
      (N + (b.stepBytes (.ofNat 32 P - .ofNat 32 S)).toNat) S ws := by
  have hstep := Sys.cpu_advance (b := b) h.pc
  have hinfer : m.sys.cpu b = { m.sys with pc := .advance } := by
    unfold Sys.cpu
    simp only [h.pc]
  have htwo : trace (step b stream) m (fun _ => .cpu) 2 =
      { m with sys := trace (Sys.step b stream) m.sys (fun _ => .cpu) 2 } := by
    refine trace_quiet (fun k hk _ => ?_)
    interval_cases k
    · show m.sys.pc ≠ .check ∧ m.sys.pc ≠ .resync
      rw [h.pc]
      exact ⟨Pc.noConfusion, Pc.noConfusion⟩
    · show (m.sys.cpu b).pc ≠ .check ∧ (m.sys.cpu b).pc ≠ .resync
      rw [hinfer]
      exact ⟨Pc.noConfusion, Pc.noConfusion⟩
  obtain ⟨hw, hp⟩ := trace_inv h.hw h.positions (fun _ => .cpu) 2
  have hend : trace (Sys.step b stream) m.sys (fun _ => .cpu) 2 = (m.sys.cpu b).cpu b := rfl
  rw [hend, hstep] at hw hp
  rw [htwo, hend, hstep, h.hw.counted, h.published, h.started]
  rw [h.hw.counted, h.published, h.started] at hw hp
  refine ⟨hw, hp, rfl, h.inBurst, h.published, ?_, rfl, h.lost, h.windows⟩
  simp only [h.nextAbs]

end Monitored

end KwsSoc.Firmware.Capture
