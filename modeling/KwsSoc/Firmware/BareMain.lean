import KwsSoc.Firmware.PeakNorm
import KwsSoc.Firmware.VoteWindows
import KwsSoc.Firmware.Window

/-! # The main loop of the bare-metal firmware

The main loop of `test/common/kws_bare_main.c` as a whole, in the default build: the capture path of
`Capture`, and behind the copied window `peak_norm_clip`, the model and the soft vote of `Vote`. The
DMA, the trap handler and the main loop interleave as they like, down to the reads of
`bytes_written` between which the handler can run. A run is one of `Vote` on what its passes have
read and heard (`Tracks`). -/

namespace KwsSoc.Firmware.BareMain

open Capture Vote SyncMachine

/-! ## The main loop -/

/-- Where the main loop is in what `Pc.infer` stands for: before `peak_norm_clip`, at the gate, or
behind it when it has opened. -/
inductive Stage
  | model | gate | reset
  deriving DecidableEq

/-- Capture path, main loop and statics. `detects` is what each pass prints, settled at its gate.
The last two fields are not in the program: `bytes_written` as the pass has read it, without the
wrap-around, and the passes so far, each with the end of its window. -/
structure Main where
  sys : Sys
  stage : Stage
  nnomOutputData : ℕ → BitVec 8
  lastPrintBw : BitVec 32
  voteScoreSum : ℕ → ℤ
  voteNClips : BitVec 32
  detects : List (Option (ℕ × ℤ))
  reads : Reads
  passes : List (ℕ × Pass)

namespace Main

/-- The start of `main`'s loop. -/
def init : Main where
  sys := .init defaultBuild
  stage := .model
  nnomOutputData _ := 0
  lastPrintBw := 0
  voteScoreSum _ := 0
  voteNClips := 0
  detects := []
  reads := ⟨0, 0, 0, 0, 0, 0, 0⟩
  passes := []

/-- The counters and the statics, as `Vote` has them. -/
def loop (m : Main) : Loop :=
  ⟨m.sys.bytesAtNextInference, m.lastPrintBw, m.voteScoreSum, m.voteNClips⟩

/-- What the pass has read and heard. -/
def pass (m : Main) : Pass := ⟨m.reads, m.nnomOutputData⟩

section

variable (ms : ℕ+) (model : List (BitVec 8) → ℕ → BitVec 8)

/-- From `peak_norm_clip` to the soft-vote accumulator. -/
def infer (m : Main) : Option Main := do
  let out := model (peakNormClip ((List.range modelSamplesPerClip).map m.sys.nnomInputData))
  let l ← m.loop.accumulate ⟨m.reads, out⟩
  return { m with
    stage := .gate
    nnomOutputData := out
    voteScoreSum := l.voteScoreSum
    voteNClips := l.voteNClips }

/-- `print_gate_open` and the winner. -/
def gate (m : Main) : Main :=
  let outcome := (m.loop.vote ms { m.reads with gate := m.sys.bytesWritten.toNat }).2
  let bw := m.sys.ghost.published
  { m with
    sys := if outcome.printGateOpen then m.sys else m.sys.cpu defaultBuild
    stage := if outcome.printGateOpen then .reset else .model
    detects := m.detects ++ [outcome.detect]
    reads := { m.reads with gate := bw, reset := bw } }

/-- The reset behind an open gate. -/
def reset (m : Main) : Main :=
  { m with
    sys := m.sys.cpu defaultBuild
    stage := .model
    lastPrintBw := m.sys.bytesWritten
    voteNClips := 0
    voteScoreSum := fun _ => 0
    reads := { m.reads with reset := m.sys.ghost.published } }

/-- One action of the main loop; each reads `bytes_written` or the ring at most once. Undefined is
an `int32_t` that overflows. -/
def cpu (m : Main) : Option Main :=
  let bw := m.sys.ghost.published
  let sys := m.sys.cpu defaultBuild
  match m.sys.pc with
  | .wait => some { m with sys, reads := { m.reads with wait := bw } }
  | .iterStart => some { m with sys, reads := { m.reads with iterStart := bw } }
  | .check => some { m with sys, reads := { m.reads with loss := bw, resync := bw } }
  | .resync => some { m with sys, reads := { m.reads with resync := bw } }
  | .copy _ => some { m with sys }
  | .infer =>
    match m.stage with
    | .model => m.infer model
    | .gate => some (m.gate ms)
    | .reset => some m.reset
  | .advance =>
    let r := { m.reads with now := bw }
    some { m with
      sys
      passes := m.passes ++ [(m.sys.ghost.nextAbs, ⟨r, m.nnomOutputData⟩)] }

variable (stream : ℕ → BitVec 8)

/-- One event. -/
def step (m : Main) : Event → Option Main
  | .cpu => m.cpu ms model
  | e => some { m with sys := m.sys.step defaultBuild stream e }

/-- The state after `n` events. -/
def run (e : ℕ → Event) : ℕ → Option Main
  | 0 => some init
  | n + 1 => do
    let m ← run e n
    m.step ms model stream (e n)

end

/-! ## A run is one of `Vote` -/

section Tracks

variable {ms : ℕ+} {model : List (BitVec 8) → ℕ → BitVec 8} {stream : ℕ → BitVec 8}
  {x : ℕ → Pass} {l : Loop} {m m' : Main}

/-- The wait is over, which began when `w` bytes had been written. -/
structure Waited (w : ℕ) (l : Loop) (r : Reads) : Prop where
  grows : w ≤ r.wait
  ready : l.Ready r

/-- `iter_start_bw` has been read. -/
structure Begun (w : ℕ) (l : Loop) (r : Reads) (iterStartBw : BitVec 32) : Prop extends
    Waited w l r where
  wait_le : r.wait ≤ r.iterStart
  iterStartBw_eq : iterStartBw = .ofNat 32 r.iterStart

/-- The check for audio loss is over. -/
structure Checked (w : ℕ) (l : Loop) (r : Reads) (iterStartBw : BitVec 32) : Prop extends
    Begun w l r iterStartBw where
  iterStart_le : r.iterStart ≤ r.loss
  loss_le : r.loss ≤ r.resync

/-- The gate has been passed, with the accumulators `l₁` and the entry `d` of `detects`. -/
structure Voted (ms : ℕ+) (w : ℕ) (l : Loop) (p : Pass) (iterStartBw : BitVec 32) (l₁ : Loop)
    (d : Option (Option (ℕ × ℤ))) : Prop extends Checked w l p.toReads iterStartBw where
  accumulate : (l.checkLoss p.toReads).accumulate p = some l₁
  resync_le : p.resync ≤ p.gate
  detects : d = some (l₁.vote ms p.toReads).2.detect

/-- Where the pass is that began in `l`, at each place of the main loop; the value read last is not
above the present one. -/
def Phase (ms : ℕ+) (w : ℕ) (l : Loop) (m : Main) : Prop :=
  let bw := m.sys.ghost.published
  match m.sys.pc, m.stage with
  | .wait, _ => w ≤ bw ∧ m.loop = l
  | .iterStart, _ => Waited w l m.reads ∧ m.reads.wait ≤ bw ∧ m.loop = l
  | .check, _ => Begun w l m.reads m.sys.iterStartBw ∧ m.reads.iterStart ≤ bw ∧ m.loop = l
  | .resync, _ => Checked w l m.reads m.sys.iterStartBw ∧ m.reads.loss ≤ bw ∧ m.loop = l ∧
      (BitVec.ofNat 32 m.reads.loss - l.bytesAtNextInference).toInt > defaultBuild.clip
  | .copy _, _ | .infer, .model => Checked w l m.reads m.sys.iterStartBw ∧ m.reads.resync ≤ bw ∧
      m.loop = l.checkLoss m.reads
  | .infer, .gate => Checked w l m.reads m.sys.iterStartBw ∧ m.reads.resync ≤ bw ∧
      (l.checkLoss m.reads).accumulate m.pass = some m.loop
  | .infer, .reset => Voted ms w l m.pass m.sys.iterStartBw m.loop m.detects[m.passes.length]? ∧
      m.reads.gate ≤ bw ∧ m.loop.printGateOpen ms m.reads = true
  | .advance, _ => m.reads.gate ≤ m.reads.reset ∧ m.reads.reset ≤ bw ∧
      ∃ l₁, Voted ms w l m.pass m.sys.iterStartBw l₁ m.detects[m.passes.length]? ∧
        m.loop = (l₁.vote ms m.reads).1

/-- **A state of a run, and the run of `Vote` on `x`**: the completed passes are those of `x`. -/
structure Tracks (ms : ℕ+) (x : ℕ → Pass) (l : Loop) (m : Main) : Prop where
  run : Vote.run ms x m.passes.length = some l
  isRun : IsRun ms x m.passes.length
  phase : Phase ms (written x m.passes.length) l m
  stage : m.sys.pc ≠ .infer → m.stage = .model
  /-- The pass has an entry in `detects` from its gate on. -/
  length_detects : m.detects.length = m.passes.length +
    if m.sys.pc = .advance ∨ m.stage = .reset then 1 else 0
  detects : ∀ k < m.passes.length, ∃ o, outcome ms x k = some o ∧ m.detects[k]? = some o.detect

/-- What the DMA and the trap handler leave alone. -/
structure Aside (s s' : Sys) : Prop where
  pc : s'.pc = s.pc
  bytesAtNextInference : s'.bytesAtNextInference = s.bytesAtNextInference
  iterStartBw : s'.iterStartBw = s.iterStartBw
  nextAbs : s'.ghost.nextAbs = s.ghost.nextAbs
  published_le : s.ghost.published ≤ s'.ghost.published

theorem aside_step {s : Sys} {e : Event} (he : e ≠ .cpu) :
    Aside s (s.step defaultBuild stream e) := by
  cases e with
  | word =>
    unfold Sys.step Sys.word
    dsimp only
    split <;> exact ⟨rfl, rfl, rfl, rfl, le_rfl⟩
  | irq =>
    unfold Sys.step Sys.irq
    dsimp only
    split
    · exact ⟨rfl, rfl, rfl, rfl, Nat.le_add_right _ _⟩
    · exact ⟨rfl, rfl, rfl, rfl, le_rfl⟩
  | cpu => exact absurd rfl he

/-- **Bursts and interrupts** leave the pass where it is. -/
theorem Tracks.aside (h : Tracks ms x l m) {s' : Sys} (hs : Aside m.sys s') :
    Tracks ms x l { m with sys := s' } := by
  have hle := hs.published_le
  have hloop : { m with sys := s' }.loop = m.loop := by rw [loop, hs.bytesAtNextInference]; rfl
  refine ⟨h.run, h.isRun, ?_, fun hpc => h.stage (hs.pc ▸ hpc), ?_, h.detects⟩
  · have hphase := h.phase
    simp only [Phase, hs.pc, hs.iterStartBw, hloop] at hphase ⊢
    cases hpc : m.sys.pc with
    | wait =>
      rw [hpc] at hphase
      exact ⟨hphase.1.trans hle, hphase.2⟩
    | iterStart | check | resync | copy j =>
      rw [hpc] at hphase
      exact ⟨hphase.1, hphase.2.1.trans hle, hphase.2.2⟩
    | infer =>
      rw [hpc] at hphase
      cases hst : m.stage <;> rw [hst] at hphase <;>
        exact ⟨hphase.1, hphase.2.1.trans hle, hphase.2.2⟩
    | advance =>
      rw [hpc] at hphase
      exact ⟨hphase.1, hphase.2.1.trans hle, hphase.2.2⟩
  · rw [h.length_detects]
    simp only [hs.pc]

/-- A step of the main loop before its gate. -/
theorem Tracks.next (h : Tracks ms x l m) (hpasses : m'.passes = m.passes)
    (hdetects : m'.detects = m.detects) (hbefore : m.sys.pc ≠ .advance ∧ m.stage ≠ .reset)
    (hafter : m'.sys.pc ≠ .advance ∧ m'.stage ≠ .reset)
    (hstage : m'.sys.pc ≠ .infer → m'.stage = .model)
    (hphase : Phase ms (written x m.passes.length) l m') : Tracks ms x l m' := by
  refine ⟨?_, ?_, ?_, hstage, ?_, ?_⟩
  · rw [hpasses]
    exact h.run
  · rw [hpasses]
    exact h.isRun
  · rw [hpasses]
    exact hphase
  · have hlen := h.length_detects
    rw [if_neg (not_or.mpr hbefore)] at hlen
    rw [hdetects, hpasses, hlen, if_neg (not_or.mpr hafter)]
  · rw [hpasses, hdetects]
    exact h.detects

theorem Tracks.wait (hw : Sys.HwInv defaultBuild stream m.sys) (h : Tracks ms x l m)
    (hpc : m.sys.pc = .wait) : ∃ m', m.cpu ms model = some m' ∧ m'.passes = m.passes ∧
      Tracks ms x l m' := by
  have hst : m.stage = .model := h.stage (by rw [hpc]; decide)
  have hphase := h.phase
  simp only [Phase, hpc] at hphase
  obtain ⟨hle, hloop⟩ := hphase
  refine ⟨{ m with
    sys := m.sys.cpu defaultBuild
    reads := { m.reads with wait := m.sys.ghost.published } }, by simp only [cpu, hpc], rfl, ?_⟩
  by_cases hlag : m.sys.lag < 0
  · have hsys : m.sys.cpu defaultBuild = m.sys := by
      rw [Sys.cpu, hpc]
      exact if_pos hlag
    rw [hsys]
    refine h.next rfl rfl ⟨by rw [hpc]; decide, by rw [hst]; decide⟩
      ⟨by rw [hpc]; decide, by rw [hst]; decide⟩ (fun _ => hst) ?_
    simp only [Phase, hpc]
    exact ⟨hle, hloop⟩
  · have hsys : m.sys.cpu defaultBuild = { m.sys with pc := .iterStart } := by
      rw [Sys.cpu, hpc]
      exact if_neg hlag
    rw [hsys]
    refine h.next rfl rfl ⟨by rw [hpc]; decide, by rw [hst]; decide⟩
      ⟨by simp, by rw [hst]; decide⟩ (fun _ => hst) ⟨⟨hle, ?_⟩, le_rfl, hloop⟩
    rw [Loop.Ready, ← hloop, ← hw.counted]
    exact hlag

theorem Tracks.iterStart (hw : Sys.HwInv defaultBuild stream m.sys) (h : Tracks ms x l m)
    (hpc : m.sys.pc = .iterStart) : ∃ m', m.cpu ms model = some m' ∧ m'.passes = m.passes ∧
      Tracks ms x l m' := by
  have hst : m.stage = .model := h.stage (by rw [hpc]; decide)
  have hphase := h.phase
  simp only [Phase, hpc] at hphase
  obtain ⟨hwaited, hle, hloop⟩ := hphase
  have hsys : m.sys.cpu defaultBuild =
      { m.sys with iterStartBw := m.sys.bytesWritten, pc := .check } := by
    rw [Sys.cpu, hpc]
  refine ⟨{ m with
    sys := m.sys.cpu defaultBuild
    reads := { m.reads with iterStart := m.sys.ghost.published } },
    by simp only [cpu, hpc], rfl, ?_⟩
  rw [hsys]
  exact h.next rfl rfl ⟨by rw [hpc]; decide, by rw [hst]; decide⟩ ⟨by simp, by rw [hst]; decide⟩
    (fun _ => hst) ⟨⟨⟨hwaited.grows, hwaited.ready⟩, hle, hw.counted⟩, le_rfl, hloop⟩

theorem Tracks.check (hw : Sys.HwInv defaultBuild stream m.sys) (h : Tracks ms x l m)
    (hpc : m.sys.pc = .check) : ∃ m', m.cpu ms model = some m' ∧ m'.passes = m.passes ∧
      Tracks ms x l m' := by
  have hst : m.stage = .model := h.stage (by rw [hpc]; decide)
  have hphase := h.phase
  simp only [Phase, hpc] at hphase
  obtain ⟨hbegun, hle, hloop⟩ := hphase
  have hlag : m.sys.lag =
      (BitVec.ofNat 32 m.sys.ghost.published - l.bytesAtNextInference).toInt := by
    rw [Sys.lag, hw.counted, ← hloop]
    rfl
  have hchecked : Checked (written x m.passes.length) l
      { m.reads with loss := m.sys.ghost.published, resync := m.sys.ghost.published }
      m.sys.iterStartBw :=
    ⟨⟨⟨hbegun.grows, hbegun.ready⟩, hbegun.wait_le, hbegun.iterStartBw_eq⟩, hle, le_rfl⟩
  refine ⟨{ m with
    sys := m.sys.cpu defaultBuild
    reads := { m.reads with loss := m.sys.ghost.published, resync := m.sys.ghost.published } },
    by simp only [cpu, hpc], rfl, ?_⟩
  by_cases hloss : m.sys.lag > defaultBuild.clip
  · have hsys : m.sys.cpu defaultBuild = { m.sys with
        pc := .resync
        ghost := { m.sys.ghost with checkedAt := m.sys.captured, resynced := false } } := by
      simp only [Sys.cpu, hpc, if_pos hloss]
    rw [hsys]
    exact h.next rfl rfl ⟨by rw [hpc]; decide, by rw [hst]; decide⟩ ⟨by simp, by rw [hst]; decide⟩
      (fun _ => hst) ⟨hchecked, le_rfl, hloop, hlag ▸ hloss⟩
  · have hsys : m.sys.cpu defaultBuild = { m.sys with
        pc := .copy 0
        ghost := { m.sys.ghost with checkedAt := m.sys.captured, resynced := false } } := by
      simp only [Sys.cpu, hpc, if_neg hloss]
    rw [hsys]
    refine h.next rfl rfl ⟨by rw [hpc]; decide, by rw [hst]; decide⟩ ⟨by simp, by rw [hst]; decide⟩
      (fun _ => hst) ⟨hchecked, le_rfl, ?_⟩
    rw [hlag] at hloss
    rw [Loop.checkLoss, if_neg hloss]
    exact hloop

theorem Tracks.resync (hw : Sys.HwInv defaultBuild stream m.sys) (h : Tracks ms x l m)
    (hpc : m.sys.pc = .resync) : ∃ m', m.cpu ms model = some m' ∧ m'.passes = m.passes ∧
      Tracks ms x l m' := by
  have hst : m.stage = .model := h.stage (by rw [hpc]; decide)
  have hphase := h.phase
  simp only [Phase, hpc] at hphase
  obtain ⟨hchecked, hle, hloop, hloss⟩ := hphase
  have hsys : m.sys.cpu defaultBuild = { m.sys with
      bytesAtNextInference := m.sys.bytesWritten
      pc := .copy 0
      ghost := { m.sys.ghost with nextAbs := m.sys.ghost.published, resynced := true } } := by
    rw [Sys.cpu, hpc]
  refine ⟨{ m with
    sys := m.sys.cpu defaultBuild
    reads := { m.reads with resync := m.sys.ghost.published } }, by simp only [cpu, hpc], rfl, ?_⟩
  rw [hsys]
  refine h.next rfl rfl ⟨by rw [hpc]; decide, by rw [hst]; decide⟩ ⟨by simp, by rw [hst]; decide⟩
    (fun _ => hst) ⟨⟨⟨⟨hchecked.grows, hchecked.ready⟩, hchecked.wait_le, hchecked.iterStartBw_eq⟩,
      hchecked.iterStart_le, hle⟩, le_rfl, ?_⟩
  rw [Loop.checkLoss, if_pos hloss, ← hloop, ← hw.counted]
  rfl

theorem Tracks.copy (h : Tracks ms x l m) {j : ℕ} (hpc : m.sys.pc = .copy j) :
    ∃ m', m.cpu ms model = some m' ∧ m'.passes = m.passes ∧ Tracks ms x l m' := by
  have hst : m.stage = .model := h.stage (by simp [hpc])
  have hphase := h.phase
  simp only [Phase, hpc] at hphase
  refine ⟨{ m with sys := m.sys.cpu defaultBuild }, by simp only [cpu, hpc], rfl, ?_⟩
  have hsys : ∃ pc, (pc = .infer ∨ ∃ i, pc = .copy i) ∧ m.sys.cpu defaultBuild = { m.sys with
      nnomInputData := Function.update m.sys.nnomInputData j
        (m.sys.audioRing (m.sys.ringIdx defaultBuild j))
      pc } := by
    refine ⟨_, ?_, by rw [Sys.cpu, hpc]⟩
    split
    · exact .inr ⟨_, rfl⟩
    · exact .inl rfl
  obtain ⟨pc, hnext, hsys⟩ := hsys
  rw [hsys]
  refine h.next rfl rfl ⟨by simp [hpc], by rw [hst]; decide⟩ ?_ (fun _ => hst) ?_
  · refine ⟨?_, by rw [hst]; decide⟩
    rcases hnext with rfl | ⟨i, rfl⟩ <;> simp
  · rcases hnext with rfl | ⟨i, rfl⟩
    · simp only [Phase, hst]
      exact hphase
    · exact hphase

theorem Tracks.infer (h : Tracks ms x l m) (hpc : m.sys.pc = .infer) (hst : m.stage = .model)
    (hfits : ∀ out, l.Fits ⟨m.reads, out⟩) :
    ∃ m', m.cpu ms model = some m' ∧ m'.passes = m.passes ∧ Tracks ms x l m' := by
  have hphase := h.phase
  simp only [Phase, hpc, hst] at hphase
  obtain ⟨hchecked, hle, hloop⟩ := hphase
  let out := model (peakNormClip ((List.range modelSamplesPerClip).map m.sys.nnomInputData))
  have hfits' : (l.checkLoss m.reads).Fits ⟨m.reads, out⟩ := by
    rw [Loop.checkLoss]
    split <;> exact hfits out
  have hacc := Loop.accumulate_eq hfits'
  refine ⟨{ m with
    stage := .gate
    nnomOutputData := out
    voteScoreSum := (m.loop.count ⟨m.reads, out⟩).voteScoreSum
    voteNClips := (m.loop.count ⟨m.reads, out⟩).voteNClips }, ?_, rfl, ?_⟩
  · simp only [cpu, hpc, hst]
    rw [Main.infer, hloop, hacc]
    rfl
  · refine h.next rfl rfl ⟨by simp [hpc], by rw [hst]; decide⟩ ⟨by simp [hpc], by simp⟩
      (fun hne => absurd hpc hne) ?_
    simp only [Phase, hpc]
    refine ⟨hchecked, hle, ?_⟩
    show (l.checkLoss m.reads).accumulate ⟨m.reads, out⟩ = _
    rw [hacc, ← hloop]
    rfl

/-- What a pass does at its gate depends on `bytes_written` as the program sees it. -/
theorem vote_snd_congr (l : Loop) {r r' : Reads}
    (hgate : BitVec.ofNat 32 r.gate = BitVec.ofNat 32 r'.gate) :
    (l.vote ms r).2 = (l.vote ms r').2 := by
  have hopen : l.printGateOpen ms r = l.printGateOpen ms r' := by
    rw [Loop.printGateOpen, Loop.printGateOpen, hgate]
  simp only [Loop.vote, hopen]

theorem Tracks.gate (hw : Sys.HwInv defaultBuild stream m.sys) (h : Tracks ms x l m)
    (hpc : m.sys.pc = .infer) (hst : m.stage = .gate) :
    ∃ m', m.cpu ms model = some m' ∧ m'.passes = m.passes ∧ Tracks ms x l m' := by
  have hphase := h.phase
  simp only [Phase, hpc, hst] at hphase
  obtain ⟨hchecked, hle, hacc⟩ := hphase
  have hlen := h.length_detects
  rw [if_neg (by rw [hpc, hst]; decide), Nat.add_zero] at hlen
  let r : Reads :=
    { m.reads with gate := m.sys.ghost.published, reset := m.sys.ghost.published }
  have hvote : (m.loop.vote ms { m.reads with gate := m.sys.bytesWritten.toNat }).2 =
      (m.loop.vote ms r).2 := by
    refine vote_snd_congr _ ?_
    rw [BitVec.ofNat_toNat, BitVec.setWidth_eq, hw.counted]
  have hvoted : Voted ms (written x m.passes.length) l ⟨r, m.nnomOutputData⟩ m.sys.iterStartBw
      m.loop (m.detects ++ [(m.loop.vote ms r).2.detect])[m.passes.length]? :=
    ⟨⟨⟨⟨hchecked.grows, hchecked.ready⟩, hchecked.wait_le, hchecked.iterStartBw_eq⟩,
      hchecked.iterStart_le, hchecked.loss_le⟩, hacc, hle, by rw [← hlen]; simp⟩
  have hdetects : ∀ k < m.passes.length, ∃ o, outcome ms x k = some o ∧
      (m.detects ++ [(m.loop.vote ms r).2.detect])[k]? = some o.detect := by
    intro k hk
    obtain ⟨o, ho, hd⟩ := h.detects k hk
    exact ⟨o, ho, by rw [List.getElem?_append_left (hlen ▸ hk), hd]⟩
  refine ⟨m.gate ms, by simp only [cpu, hpc, hst], rfl, ?_⟩
  unfold Main.gate
  rw [hvote]
  rcases Bool.eq_false_or_eq_true (m.loop.vote ms r).2.printGateOpen with hopen | hopen
  · simp only [hopen, if_true]
    refine ⟨h.run, h.isRun, ?_, fun hne => absurd hpc hne, ?_, hdetects⟩
    · simp only [Phase, hpc]
      exact ⟨hvoted, le_rfl, hopen⟩
    · simp [hlen]
  · have hsys : m.sys.cpu defaultBuild = { m.sys with pc := .advance } := by rw [Sys.cpu, hpc]
    simp only [hopen, Bool.false_eq_true, if_false, hsys]
    have hclosed : ¬ m.loop.printGateOpen ms r = true := fun h =>
      Bool.false_ne_true (hopen.symm.trans h)
    refine ⟨h.run, h.isRun, ⟨le_rfl, le_rfl, m.loop, hvoted, ?_⟩, fun _ => rfl, ?_, hdetects⟩
    · rw [Loop.vote_fst, if_neg hclosed]
      rfl
    · simp [hlen]

theorem Tracks.reset (hw : Sys.HwInv defaultBuild stream m.sys) (h : Tracks ms x l m)
    (hpc : m.sys.pc = .infer) (hst : m.stage = .reset) :
    ∃ m', m.cpu ms model = some m' ∧ m'.passes = m.passes ∧ Tracks ms x l m' := by
  have hphase := h.phase
  simp only [Phase, hpc, hst] at hphase
  obtain ⟨hvoted, hle, hopen⟩ := hphase
  have hsys : m.sys.cpu defaultBuild = { m.sys with pc := .advance } := by rw [Sys.cpu, hpc]
  let r : Reads := { m.reads with reset := m.sys.ghost.published }
  have hvoted' : Voted ms (written x m.passes.length) l ⟨r, m.nnomOutputData⟩ m.sys.iterStartBw
      m.loop m.detects[m.passes.length]? :=
    ⟨⟨⟨⟨hvoted.grows, hvoted.ready⟩, hvoted.wait_le, hvoted.iterStartBw_eq⟩, hvoted.iterStart_le,
      hvoted.loss_le⟩, hvoted.accumulate, hvoted.resync_le,
      hvoted.detects.trans (congrArg (fun o : Outcome => some o.detect) (vote_snd_congr _ rfl))⟩
  refine ⟨m.reset, by simp only [cpu, hpc, hst], rfl, ?_⟩
  unfold Main.reset
  rw [hsys]
  refine ⟨h.run, h.isRun, ⟨hle, le_rfl, m.loop, hvoted', ?_⟩, fun _ => rfl, ?_, h.detects⟩
  · have hopen' : m.loop.printGateOpen ms r = true := hopen
    rw [Loop.vote_fst, if_pos hopen', ← hw.counted]
    rfl
  · have hlen := h.length_detects
    rw [if_pos (.inr hst)] at hlen
    rw [hlen]
    rfl

/-- **The end of a pass**, if it is the next one of `x`. -/
theorem Tracks.advance (hw : Sys.HwInv defaultBuild stream m.sys) (h : Tracks ms x l m)
    (hpc : m.sys.pc = .advance)
    (hx : x m.passes.length =
      ⟨{ m.reads with now := m.sys.ghost.published }, m.nnomOutputData⟩) :
    ∃ m', m.cpu ms model = some m' ∧
      m'.passes = m.passes ++ [(m.sys.ghost.nextAbs, x m.passes.length)] ∧
      Tracks ms x m'.loop m' := by
  have hst : m.stage = .model := h.stage (by rw [hpc]; decide)
  have hphase := h.phase
  simp only [Phase, hpc] at hphase
  obtain ⟨hreset, hle, l₁, hvoted, hloop⟩ := hphase
  have hlen := h.length_detects
  rw [if_pos (.inl hpc)] at hlen
  have hsys : m.sys.cpu defaultBuild = { m.sys with
      bytesAtNextInference := m.sys.bytesAtNextInference +
        defaultBuild.stepBytes (m.sys.bytesWritten - m.sys.iterStartBw)
      pc := .wait
      ghost := { m.sys.ghost with
        nextAbs := m.sys.ghost.nextAbs +
          (defaultBuild.stepBytes (m.sys.bytesWritten - m.sys.iterStartBw)).toNat } } := by
    rw [Sys.cpu, hpc]
  refine ⟨{ m with
    sys := m.sys.cpu defaultBuild
    passes := m.passes ++ [(m.sys.ghost.nextAbs,
      ⟨{ m.reads with now := m.sys.ghost.published }, m.nnomOutputData⟩)] },
    by simp only [cpu, hpc], by rw [hx], ?_⟩
  rw [hsys]
  have hiter : l.iterate ms (x m.passes.length) =
      some ((l₁.vote ms m.reads).1.advance
        { m.reads with now := m.sys.ghost.published }, (l₁.vote ms m.reads).2) := by
    have hacc : (l.checkLoss (x m.passes.length).toReads).accumulate (x m.passes.length) =
        some l₁ := by
      rw [hx]
      exact hvoted.accumulate
    rw [Loop.iterate, hacc, hx]
    rfl
  have hnext : (l₁.vote ms m.reads).1.advance { m.reads with now := m.sys.ghost.published } =
      ⟨m.sys.bytesAtNextInference + defaultBuild.stepBytes (m.sys.bytesWritten - m.sys.iterStartBw),
        m.lastPrintBw, m.voteScoreSum, m.voteNClips⟩ := by
    rw [← hloop, hw.counted, hvoted.iterStartBw_eq]
    rfl
  have hlength (p : ℕ × Pass) : (m.passes ++ [p]).length = m.passes.length + 1 :=
    List.length_append
  refine ⟨?_, ?_, ?_, fun _ => hst, ?_, ?_⟩
  · rw [hlength, Vote.run, h.run, Option.bind_eq_bind, Option.bind_some, hiter, hnext]
    rfl
  · rw [hlength]
    refine ⟨fun k hk => ?_, fun k hk => ?_, fun k hk l' hl' => ?_⟩
    · rcases Nat.lt_succ_iff_lt_or_eq.mp hk with hlt | rfl
      · exact h.isRun.ordered k hlt
      · rw [hx]
        exact ⟨hvoted.wait_le, hvoted.iterStart_le, hvoted.loss_le, hvoted.resync_le, hreset, hle⟩
    · rcases Nat.lt_succ_iff_lt_or_eq.mp hk with hlt | rfl
      · exact h.isRun.grows k hlt
      · rw [hx]
        exact hvoted.grows
    · rcases Nat.lt_succ_iff_lt_or_eq.mp hk with hlt | rfl
      · exact h.isRun.ready k hlt l' hl'
      · obtain rfl : l = l' := Option.some.inj (h.run.symm.trans hl')
        rw [hx]
        exact hvoted.ready
  · rw [hlength]
    refine ⟨?_, rfl⟩
    rw [written, hx]
  · rw [hlength, hlen, hst]
    rfl
  · intro k hk
    rw [hlength] at hk
    rcases Nat.lt_succ_iff_lt_or_eq.mp hk with hlt | rfl
    · exact h.detects k hlt
    · refine ⟨(l₁.vote ms m.reads).2, ?_, hvoted.detects⟩
      rw [outcome, h.run, Option.bind_eq_bind, Option.bind_some, hiter]
      rfl

end Tracks

end Main

end KwsSoc.Firmware.BareMain
