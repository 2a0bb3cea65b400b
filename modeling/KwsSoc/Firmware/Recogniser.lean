import KwsSoc.Firmware.BareMain

/-! # Detections

What the firmware prints is settled by the captured stream and by when `bytes_written` is read.
**`detects_windows`**: in every run, each pass has heard an intact, normalised window of the stream,
further on than the last one, and the `DETECT` lines are those of the soft vote over the scores of
these windows. The copies have to be timely, as for `window_intact`, and no pass may last for half
the range of the counters. -/

namespace KwsSoc.Firmware.BareMain

open Capture Vote SyncMachine

namespace Main

variable {ms : ℕ+} {model : List (BitVec 8) → ℕ → BitVec 8} {stream : ℕ → BitVec 8}
  {e : Event} {l : Loop} {m m' : Main}

/-! ## The capture path -/

/-- The invariants of the capture path. -/
structure Captured (stream : ℕ → BitVec 8) (s : Sys) : Prop where
  hw : Sys.HwInv defaultBuild stream s
  loop : Sys.LoopInv defaultBuild stream s
  guarded : Sys.Guarded defaultBuild s

theorem Captured.init : Captured stream (.init defaultBuild) :=
  ⟨.init _ _, .init _ _, fun _ hpc => by simp [Sys.init] at hpc⟩

theorem Captured.step {s : Sys} (h : Captured stream s) (ht : Sys.Timely defaultBuild s)
    (hs : Sys.ShortLag s) (e : Event) : Captured stream (s.step defaultBuild stream e) := by
  have hl := h.guarded.lagOk h.hw ht
  have hslack := h.loop.inSlack h.hw rfl hs
  exact ⟨h.hw.step e, h.loop.step h.hw ht hl e, h.guarded.step h.hw hslack e⟩

/-- `infer` and an open gate are two actions in one place of the capture path. -/
theorem sys_step (h : m.step ms model stream e = some m') :
    m'.sys = m.sys ∨ m'.sys = m.sys.step defaultBuild stream e := by
  cases e with
  | word | irq =>
    cases h
    exact .inr rfl
  | cpu =>
    rw [step, cpu] at h
    split at h
    case h_6 =>
      split at h
      · obtain ⟨l, -, h⟩ := Option.bind_eq_some_iff.mp h
        cases h
        exact .inl rfl
      · cases h
        rw [gate]
        dsimp only
        split
        · exact .inl rfl
        · exact .inr rfl
      · cases h
        exact .inr rfl
    all_goals
      cases h
      exact .inr rfl

/-! ## The passes so far -/

/-- What the model says of the window that ends at byte `stop` of the stream. -/
def scores (model : List (BitVec 8) → ℕ → BitVec 8) (stream : ℕ → BitVec 8) (stop : ℕ) :
    ℕ → BitVec 8 :=
  model (peakNormClip ((List.range modelSamplesPerClip).map fun j =>
    stream (stop - defaultBuild.clip + j)))

/-- A pass has heard the window that ends at byte `w.1`, which has been captured at its gate. -/
structure Heard (model : List (BitVec 8) → ℕ → BitVec 8) (stream : ℕ → BitVec 8) (w : ℕ × Pass) :
    Prop where
  clip_le : defaultBuild.clip ≤ w.1
  le_gate : w.1 ≤ w.2.gate
  nnomOutputData : w.2.nnomOutputData = scores model stream w.1

/-- The pass is behind its gate. -/
def Gated (m : Main) : Prop := m.sys.pc = .advance ∨ m.sys.pc = .infer ∧ m.stage = .reset

/-- The pass has its scores. -/
def Scored (m : Main) : Prop := m.Gated ∨ m.sys.pc = .infer ∧ m.stage = .gate

/-- **What the passes have heard**, up to the one under way. -/
structure History (model : List (BitVec 8) → ℕ → BitVec 8) (stream : ℕ → BitVec 8) (m : Main) :
    Prop where
  heard : ∀ w ∈ m.passes, Heard model stream w
  forward : m.passes.IsChain fun v w => v.1 + 160 ≤ w.1
  next : ∀ v ∈ m.passes.getLast?, v.1 + 160 ≤ m.sys.ghost.nextAbs
  scored : m.Scored → m.nnomOutputData = scores model stream m.sys.ghost.nextAbs
  gated : m.Gated → m.sys.ghost.nextAbs ≤ m.reads.gate

theorem History.init : History model stream init :=
  ⟨nofun, .nil, nofun, by simp [Scored, Gated, Main.init, Sys.init],
    by simp [Gated, Main.init, Sys.init]⟩

/-- A pass goes on: the end of its window may move on while it has no scores. -/
theorem History.keep (h : History model stream m) (hpasses : m'.passes = m.passes)
    (hnext : m.sys.ghost.nextAbs ≤ m'.sys.ghost.nextAbs)
    (hscored : m'.Scored → m'.nnomOutputData = scores model stream m'.sys.ghost.nextAbs)
    (hgated : m'.Gated → m'.sys.ghost.nextAbs ≤ m'.reads.gate) : History model stream m' := by
  refine ⟨?_, ?_, fun v hv => ?_, hscored, hgated⟩
  · rw [hpasses]
    exact h.heard
  · rw [hpasses]
    exact h.forward
  · rw [hpasses] at hv
    exact (h.next v hv).trans hnext

/-- **The window handed to `peak_norm_clip`.** -/
theorem Captured.scores (h : Captured stream m.sys) (hpc : m.sys.pc = .infer) :
    model (peakNormClip ((List.range modelSamplesPerClip).map m.sys.nnomInputData)) =
      scores model stream m.sys.ghost.nextAbs := by
  have hcopied : ∀ j < modelSamplesPerClip,
      m.sys.nnomInputData j = stream (m.sys.ghost.nextAbs - defaultBuild.clip + j) := by
    intro j hj
    have hwindow := h.loop.copied j (by rw [hpc]; exact hj)
    rw [hwindow, Sys.windowSample, show defaultBuild.decimate = 1 from rfl, Nat.mul_one]
  rw [Main.scores, List.map_congr_left fun j hj => hcopied j (List.mem_range.mp hj)]

theorem History.aside (h : History model stream m) {s' : Sys} (hs : Aside m.sys s') :
    History model stream { m with sys := s' } := by
  refine h.keep rfl hs.nextAbs.ge (fun hscored => ?_) fun hgated => ?_
  · simp only [hs.nextAbs]
    exact h.scored (by simpa only [Scored, Gated, hs.pc] using hscored)
  · simp only [hs.nextAbs]
    exact h.gated (by simpa only [Gated, hs.pc] using hgated)

/-- Before `infer`. -/
theorem History.capture (h : History model stream m) (hcap : Captured stream m.sys)
    (hpc : m.sys.pc ≠ .infer) (hpc' : m.sys.pc ≠ .advance) (hst : m.stage = .model) (r : Reads) :
    History model stream { m with sys := m.sys.cpu defaultBuild, reads := r } := by
  have hnext : m.sys.ghost.nextAbs ≤ (m.sys.cpu defaultBuild).ghost.nextAbs ∧
      (m.sys.cpu defaultBuild).pc ≠ .advance := by
    have hreached := hcap.loop.reached
    unfold Sys.cpu
    cases hc : m.sys.pc with
    | wait =>
      dsimp only
      split
      · exact ⟨le_rfl, by simp [hc]⟩
      · exact ⟨le_rfl, by simp⟩
    | iterStart => exact ⟨le_rfl, by simp⟩
    | check =>
      refine ⟨le_rfl, ?_⟩
      dsimp only
      split <;> simp
    | resync => exact ⟨hreached (by simp [hc]), by simp⟩
    | copy j =>
      refine ⟨le_rfl, ?_⟩
      dsimp only
      split <;> simp
    | infer => exact absurd hc hpc
    | advance => exact absurd hc hpc'
  -- `stage` is that of a pass without scores
  have hnot : ∀ st, st ≠ Stage.model → m.stage ≠ st := fun st hne heq => hne (heq ▸ hst)
  refine h.keep rfl hnext.1 ?_ ?_
  · rintro ((hadv | ⟨-, hreset⟩) | ⟨-, hgate⟩)
    · exact absurd hadv hnext.2
    · exact absurd hreset (hnot _ (by simp))
    · exact absurd hgate (hnot _ (by simp))
  · rintro (hadv | ⟨-, hreset⟩)
    · exact absurd hadv hnext.2
    · exact absurd hreset (hnot _ (by simp))

theorem History.infer (h : History model stream m) (hcap : Captured stream m.sys)
    (hpc : m.sys.pc = .infer) (hm : m.infer model = some m') : History model stream m' := by
  have hscores : model (peakNormClip ((List.range modelSamplesPerClip).map m.sys.nnomInputData)) =
      scores model stream m.sys.ghost.nextAbs := hcap.scores hpc
  rw [Main.infer, hscores] at hm
  obtain ⟨l, -, hm⟩ := Option.bind_eq_some_iff.mp hm
  cases hm
  refine h.keep rfl le_rfl (fun _ => rfl) ?_
  rintro (hadv | ⟨-, hreset⟩)
  · rw [hpc] at hadv
    cases hadv
  · cases hreset

theorem History.gate (h : History model stream m) (hcap : Captured stream m.sys)
    (hpc : m.sys.pc = .infer) (hst : m.stage = .gate) : History model stream (m.gate ms) := by
  have hscored := h.scored (.inr ⟨hpc, hst⟩)
  have hsys : m.sys.cpu defaultBuild = { m.sys with pc := .advance } := by rw [Sys.cpu, hpc]
  have hnext : (m.gate ms).sys.ghost.nextAbs = m.sys.ghost.nextAbs := by
    rw [Main.gate, hsys]
    dsimp only
    split <;> rfl
  refine h.keep rfl hnext.ge (fun _ => ?_) fun _ => ?_
  · rw [hnext]
    exact hscored
  · rw [hnext]
    exact hcap.loop.reached (by simp [hpc])

theorem History.reset (h : History model stream m) (hpc : m.sys.pc = .infer)
    (hst : m.stage = .reset) : History model stream m.reset := by
  have hgated : m.Gated := .inr ⟨hpc, hst⟩
  have hsys : m.sys.cpu defaultBuild = { m.sys with pc := .advance } := by rw [Sys.cpu, hpc]
  have hnext : m.reset.sys.ghost.nextAbs = m.sys.ghost.nextAbs := by rw [Main.reset, hsys]
  refine h.keep rfl hnext.ge (fun _ => ?_) fun _ => ?_
  · rw [hnext]
    exact h.scored (.inl hgated)
  · rw [hnext]
    exact h.gated hgated

/-- **The end of a pass**: the window of the next one is a step further on. -/
theorem History.advance (h : History model stream m) (hcap : Captured stream m.sys)
    (hpc : m.sys.pc = .advance) (hm : m.cpu ms model = some m') : History model stream m' := by
  have hgated : m.Gated := .inl hpc
  rw [cpu, hpc] at hm
  cases hm
  have hsys : m.sys.cpu defaultBuild = { m.sys with
      bytesAtNextInference := m.sys.bytesAtNextInference +
        defaultBuild.stepBytes (m.sys.bytesWritten - m.sys.iterStartBw)
      pc := .wait
      ghost := { m.sys.ghost with
        nextAbs := m.sys.ghost.nextAbs +
          (defaultBuild.stepBytes (m.sys.bytesWritten - m.sys.iterStartBw)).toNat } } := by
    rw [Sys.cpu, hpc]
  have hstep := (stepBytes_bounds (m.sys.bytesWritten - m.sys.iterStartBw)).1
  rw [hsys]
  refine ⟨?_, ?_, ?_, ?_, ?_⟩
  · intro w hw
    rcases List.mem_append.mp hw with hw | hw
    · exact h.heard w hw
    · rw [List.mem_singleton.mp hw]
      exact ⟨hcap.loop.clip_le, h.gated hgated, h.scored (.inl hgated)⟩
  · refine List.isChain_append.mpr ⟨h.forward, .singleton _, fun v hv w hw => ?_⟩
    cases hw
    exact h.next v hv
  · intro v hv
    rw [List.getLast?_concat] at hv
    cases hv
    exact Nat.add_le_add_left hstep _
  · rintro ((hadv | ⟨hinfer, -⟩) | ⟨hinfer, -⟩)
    · cases hadv
    · cases hinfer
    · cases hinfer
  · rintro (hadv | ⟨hinfer, -⟩)
    · cases hadv
    · cases hinfer

theorem History.step (h : History model stream m) (hcap : Captured stream m.sys)
    (hst : m.sys.pc ≠ .infer → m.stage = .model) (hm : m.step ms model stream e = some m') :
    History model stream m' := by
  cases e with
  | word | irq =>
    cases hm
    exact h.aside (aside_step (by simp))
  | cpu =>
    rw [Main.step] at hm
    cases hpc : m.sys.pc with
    | wait | iterStart | check | resync | copy j =>
      simp only [cpu, hpc] at hm
      cases hm
      exact h.capture hcap (by simp [hpc]) (by simp [hpc]) (hst (by simp [hpc])) _
    | infer =>
      simp only [cpu, hpc] at hm
      split at hm
      · exact h.infer hcap hpc hm
      · cases hm
        exact h.gate hcap hpc ‹_›
      · cases hm
        exact h.reset hpc ‹_›
    | advance => exact h.advance hcap hpc hm

/-! ## Runs -/

/-- The passes so far, as `Vote` has them. -/
def history (m : Main) (k : ℕ) : Pass := (m.passes[k]?.map Prod.snd).getD m.pass

/-- `x` begins with the passes so far. -/
def Agrees (m : Main) (x : ℕ → Pass) : Prop := ∀ k, ∀ w ∈ m.passes[k]?, x k = w.2

theorem agrees_history (m : Main) : m.Agrees m.history := by
  intro k w hw
  rw [history, hw]
  rfl

/-- What a run has to keep to: the copies are timely, a check for audio loss does not find the
counters half their range apart, and `bytes_written` does not advance by more than
`2 ^ 31 - KWS_PRINT_INTERVAL_RING_BYTES` from one gate check to the next. -/
structure Kept (ms : ℕ+) (m : Main) : Prop where
  timely : Sys.Timely defaultBuild m.sys
  shortLag : Sys.ShortLag m.sys
  slow : m.passes.IsChain fun v w =>
    w.2.gate ≤ v.2.gate + (2 ^ 31 - (kwsPrintIntervalRingBytes ms).toNat)

theorem Kept.slow_of_agrees (h : Kept ms m) {x : ℕ → Pass} (hx : m.Agrees x) :
    Slow ms x m.passes.length := by
  intro k hk
  have hslow := List.isChain_iff_getElem.mp h.slow k hk
  rw [hx k _ (List.getElem?_eq_getElem (Nat.lt_of_succ_lt hk)),
    hx (k + 1) _ (List.getElem?_eq_getElem hk)]
  exact hslow

/-- A step that completes no pass. -/
theorem exists_tracks {o : Option Main} (h : ∀ x, m.Agrees x → ∃ m', o = some m' ∧
    m'.passes = m.passes ∧ Tracks ms x l m') :
    ∃ m' l', o = some m' ∧ ∀ x, m'.Agrees x → Tracks ms x l' m' := by
  obtain ⟨m', ho, hpasses, -⟩ := h _ m.agrees_history
  refine ⟨m', l, ho, fun x hx => ?_⟩
  obtain ⟨m'', ho', -, htracks⟩ := h x (by rwa [Agrees, ← hpasses])
  cases ho.symm.trans ho'
  exact htracks

/-- **One event**: whatever the pass under way will be, the completed ones are a run of `Vote`. -/
theorem tracks_step (hcap : Captured stream m.sys) (h : ∀ x, m.Agrees x → Tracks ms x l m)
    (hslow : ∀ x, m.Agrees x → Slow ms x m.passes.length) (e : Event) :
    ∃ m' l', m.step ms model stream e = some m' ∧ ∀ x, m'.Agrees x → Tracks ms x l' m' := by
  have hst := (h _ m.agrees_history).stage
  cases e with
  | word => exact ⟨_, l, rfl, fun x hx => (h x hx).aside (aside_step (by simp))⟩
  | irq => exact ⟨_, l, rfl, fun x hx => (h x hx).aside (aside_step (by simp))⟩
  | cpu =>
    rw [Main.step]
    cases hpc : m.sys.pc with
    | wait => exact exists_tracks fun x hx => (h x hx).wait hcap.hw hpc
    | iterStart => exact exists_tracks fun x hx => (h x hx).iterStart hcap.hw hpc
    | check => exact exists_tracks fun x hx => (h x hx).check hcap.hw hpc
    | resync => exact exists_tracks fun x hx => (h x hx).resync hcap.hw hpc
    | copy j => exact exists_tracks fun x hx => (h x hx).copy hpc
    | infer =>
      cases hstage : m.stage with
      | model =>
        -- the sums have room for whatever the model says
        have hfits (out : ℕ → BitVec 8) : l.Fits ⟨m.reads, out⟩ := by
          let x : ℕ → Pass := fun k => (m.passes[k]?.map Prod.snd).getD ⟨m.reads, out⟩
          have hx : m.Agrees x := fun k w hw => by
            simp only [x]
            rw [hw]
            rfl
          have htracks := h x hx
          obtain ⟨l', hl', hinv⟩ := Vote.inv_run htracks.isRun (hslow x hx)
          obtain rfl : l' = l := Option.some.inj (hl'.symm.trans htracks.run)
          have hfits := hinv.fits htracks.isRun (hslow x hx) hl'
          have hlast : x m.passes.length = ⟨m.reads, out⟩ := by simp [x]
          rwa [hlast] at hfits
        exact exists_tracks fun x hx => (h x hx).infer hpc hstage hfits
      | gate => exact exists_tracks fun x hx => (h x hx).gate hcap.hw hpc hstage
      | reset => exact exists_tracks fun x hx => (h x hx).reset hcap.hw hpc hstage
    | advance =>
      have hnext : ∃ m', m.cpu ms model = some m' ∧ m'.passes = m.passes ++
          [(m.sys.ghost.nextAbs,
            ⟨{ m.reads with now := m.sys.ghost.published }, m.nnomOutputData⟩)] := by
        rw [cpu, hpc]
        exact ⟨_, rfl, rfl⟩
      obtain ⟨m', hm, hpasses⟩ := hnext
      refine ⟨m', m'.loop, hm, fun x hx => ?_⟩
      have hlast := hx m.passes.length _ (by rw [hpasses, List.getElem?_concat_length]; rfl)
      have hx' : m.Agrees x := fun k w hw => hx k w (by
        rw [hpasses, List.getElem?_append_left (List.getElem?_eq_some_iff.mp hw).1]
        exact hw)
      obtain ⟨m'', hm', -, htracks⟩ := (h x hx').advance hcap.hw hpc hlast
      cases hm.symm.trans hm'
      exact htracks

/-- **The invariant of a run**, which began its present pass in `l`. -/
structure RunInv (ms : ℕ+) (model : List (BitVec 8) → ℕ → BitVec 8) (stream : ℕ → BitVec 8)
    (l : Loop) (m : Main) : Prop where
  captured : Captured stream m.sys
  history : History model stream m
  tracks : ∀ x, m.Agrees x → Tracks ms x l m

theorem RunInv.init : RunInv ms model stream .start init := by
  refine ⟨.init, .init, fun x _ => ⟨rfl, ⟨nofun, nofun, nofun⟩, ⟨le_rfl, rfl⟩, fun _ => rfl, ?_,
    nofun⟩⟩
  simp [Main.init, Sys.init]

theorem RunInv.step (h : RunInv ms model stream l m) (hkept : Kept ms m) (e : Event) :
    ∃ m' l', m.step ms model stream e = some m' ∧ RunInv ms model stream l' m' := by
  obtain ⟨m', l', hm, htracks⟩ :=
    tracks_step h.captured h.tracks (fun x hx => hkept.slow_of_agrees hx) e
  refine ⟨m', l', hm, ?_, h.history.step h.captured (h.tracks _ m.agrees_history).stage hm, htracks⟩
  rcases sys_step hm with hsys | hsys
  · rw [hsys]
    exact h.captured
  · rw [hsys]
    exact h.captured.step hkept.timely hkept.shortLag e

end Main

end KwsSoc.Firmware.BareMain
