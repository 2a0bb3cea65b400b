import KwsSoc.Firmware.Handover
import KwsSoc.Firmware.UartLog
import KwsSoc.Lib.Refractory
import KwsSoc.Lib.StreamRing
import KwsSoc.Stream.Session

/-! # The detector of the streaming firmware

The rest of the main loop of `test/model/streaming/kws_bare_stream.c`: each hop that the capture path
hands over is pushed to the engine, the scores are averaged over the last hops, and a class that
stands out is announced, after which the firmware is silent for some hops (`Main.pass`). Put behind
the capture path (`Detector.step`), in every interleaving of the DMA, the trap handler and the main
loop, **`announces`**: the announcements are those that the batch network gives on the samples of the
FIFO, until `gap_head` overflows. -/

namespace KwsSoc.Stream

open Firmware (Hop.hopBufSz Hop.Event Hop.Sys Hop.Sys.sample Hop.Sys.passed)
open Firmware.Vote (numClasses firstMax IsFirstMax isFirstMax_firstMax)
open Firmware.UartLog (uartPutdec className)
open TextLines (crlf)
open SyncMachine Refractory

/-! ## The main loop -/

/-- The macros of a build that tune the detector. The scores of `smoothWin` hops fit into the
SRAM. -/
structure Tuning where
  kwsDetectThreshold : BitVec 32
  kwsDebounceHops : ℕ
  smoothWin : ℕ
  debounceHops_lt : kwsDebounceHops < 2 ^ 31
  smoothWin_pos : 0 < smoothWin
  smoothWin_le : numClasses * smoothWin ≤ 0x20000

/-- Their defaults. -/
def Tuning.default : Tuning := ⟨60, 5, 3, by decide, by decide, by decide⟩

/-- The score of class `c`. -/
def score (scores : Frame 11) (c : ℕ) : ℤ := (scores (Fin.ofNat 11 c)).toInt

/-- The variables of `main` and the statics it uses. `announced` is not in the program: what each
pass so far has announced. -/
structure Main where
  stream : Session
  scoreHistory : ℕ → Frame 11
  scoreHistHead : ℕ
  scoreHistCnt : ℕ
  smoothScores : Frame 11
  debounceCtr : ℕ
  uart : List Char
  announced : List (Option (ℕ × ℤ))

/-- What is printed before the main loop. -/
def banner (t : Tuning) : List Char :=
  ("KWS streaming firmware (Option B, hop=200ms)".toList ++ crlf) ++
    ("Threshold:".toList ++ uartPutdec t.kwsDetectThreshold ++ " Debounce:".toList ++
      uartPutdec (.ofNat 32 t.kwsDebounceHops) ++ " hops".toList ++ crlf) ++
    ("I2S started".toList ++ crlf)

/-- The line that announces a class. -/
def announcement (a : ℕ × ℤ) : List Char :=
  "DETECT:".toList ++ uartPutdec (.ofNat 32 a.1) ++ [','] ++ className a.1 ++ [','] ++
    uartPutdec (.ofInt 32 a.2) ++ crlf

namespace Main

variable (nn : Nnom) (w : Weights) (t : Tuning)

/-- The start of the main loop. -/
def init (scratch : Scratch) : Main where
  stream := Session.start scratch zeroFrame
  scoreHistory _ := zeroFrame
  scoreHistHead := 0
  scoreHistCnt := 0
  smoothScores := zeroFrame
  debounceCtr := 0
  uart := banner t
  announced := []

/-- The average of the first `cnt` slots. -/
def average (scoreHistory : ℕ → Frame 11) (cnt : ℕ) : Frame 11 := fun c =>
  .ofInt 8 (((List.range cnt).map fun w => (scoreHistory w c).toInt).sum.tdiv cnt)

/-- `update_smooth`. -/
def updateSmooth (m : Main) (newScores : Frame 11) : Main :=
  let scoreHistory := Function.update m.scoreHistory m.scoreHistHead newScores
  let scoreHistCnt := if m.scoreHistCnt < t.smoothWin then m.scoreHistCnt + 1 else m.scoreHistCnt
  { m with
    scoreHistory, scoreHistCnt
    scoreHistHead := (m.scoreHistHead + 1) % t.smoothWin
    smoothScores := average scoreHistory scoreHistCnt }

/-- The end of a pass. -/
def announce (m : Main) : Main :=
  if m.debounceCtr > 0 then
    { m with debounceCtr := m.debounceCtr - 1, announced := m.announced ++ [none] }
  else
    let (bestC, bestScore) := firstMax (score m.smoothScores) (numClasses - 1)
    if bestC ≠ numClasses - 1 ∧ bestScore > t.kwsDetectThreshold.toInt then
      { m with
        uart := m.uart ++ announcement (bestC, bestScore)
        debounceCtr := t.kwsDebounceHops
        announced := m.announced ++ [some (bestC, bestScore)] }
    else { m with announced := m.announced ++ [none] }

/-- A pass of the main loop over the hop in `safe_hop`. Nothing has been stored in the array
`scores` before. -/
def pass (m : Main) (scores : Frame 11) (safeHop : List (BitVec 8)) : Option Main := do
  let (stream, _) ← kwsStreamBPush nn w { m.stream with scores } (safeHop.map fun q7 _ => q7)
  return (updateSmooth t { m with stream } stream.scores).announce t

end Main

/-! ## The firmware -/

/-- The capture path and the variables of the main loop. -/
structure Detector where
  capture : Hop.Sys
  main : Option Main

namespace Detector

variable (depth : ℕ) (i2s : ℕ → BitVec 32) (nn : Nnom) (w : Weights) (t : Tuning)
  (stack : ℕ → Frame 11) (scratch : Scratch)

/-- Before `csr_enable_mie`. -/
def init : Detector := ⟨Firmware.Hop.Sys.init, some (Main.init t scratch)⟩

/-- One event. What the array `scores` holds at the beginning of a pass is given by `stack`. -/
def step (s : Detector) (e : Hop.Event) : Detector where
  capture := s.capture.step depth i2s e
  main :=
    match e, s.capture.pc with
    | .cpu, .push => s.main.bind fun m =>
        m.pass nn w t (stack s.capture.pushed.length)
          ((List.range (Hop.hopBufSz depth)).map s.capture.safeHop)
    | _, _ => s.main

/-- The states of a run. -/
def run (e : ℕ → Hop.Event) : ℕ → Detector :=
  trace (step depth i2s nn w t stack) (init t scratch) e

end Detector

/-! ## What the detector is for -/

section Spec

variable (depth : ℕ) (i2s : ℕ → BitVec 32) (nn : Nnom) (w : Weights) (t : Tuning)

/-- The samples of the first `k` hop buffers. -/
def heard (k : ℕ) : List (Frame 1) :=
  (List.range (Hop.hopBufSz depth * k)).map fun i _ => Hop.Sys.sample i2s i

/-- The scores of pass `j`: the batch network on the whole hops of all samples so far. -/
def scoresAt (j : ℕ) : Frame 11 :=
  batchScores nn w ((heard depth i2s (j + 1)).take (hop * (Hop.hopBufSz depth * (j + 1) / hop)))

/-- The mean score of class `c` over the last `smoothWin` passes up to pass `j`, rounded towards
zero. -/
def meanScore (scores : ℕ → Frame 11) (j c : ℕ) : ℤ :=
  ((List.range' (j + 1 - t.smoothWin) (min t.smoothWin (j + 1))).map fun i =>
    score (scores i) c).sum.tdiv (min t.smoothWin (j + 1) : ℕ)

/-- Class `c` stands out with the score `s`: it is the first of the best, it is not `unknown`, and
its score is above the threshold. -/
structure StandsOut (f : ℕ → ℤ) (a : ℕ × ℤ) : Prop where
  best : IsFirstMax f numClasses a.1
  score : a.2 = f a.1
  known : a.1 ≠ numClasses - 1
  above : t.kwsDetectThreshold.toInt < a.2

end Spec

/-! ## Smoothing -/

/-- A mean of bytes is a byte. -/
theorem mean_fits {xs : List ℤ} {n : ℕ} (hpos : 0 < n) (hlen : xs.length = n)
    (hxs : ∀ x ∈ xs, -2 ^ 7 ≤ x ∧ x < 2 ^ 7) :
    -2 ^ 7 ≤ xs.sum.tdiv n ∧ xs.sum.tdiv n < 2 ^ 7 := by
  have hn : (0 : ℤ) < n := Int.natCast_pos.mpr hpos
  have hlow := List.card_nsmul_le_sum xs (-2 ^ 7) fun x hx => (hxs x hx).1
  have hhigh := List.sum_le_card_nsmul xs (2 ^ 7 - 1) fun x hx => Int.le_sub_one_of_lt (hxs x hx).2
  rw [hlen, nsmul_eq_mul, Int.mul_comm] at hlow hhigh
  have hmin := Int.tdiv_le_tdiv hn hlow
  have hmax := Int.tdiv_le_tdiv hn hhigh
  rw [Int.mul_tdiv_cancel _ hn.ne'] at hmin hmax
  exact ⟨hmin, Int.lt_of_le_sub_one hmax⟩

/-- `update_smooth` divides and stores without loss. -/
theorem score_average (scoreHistory : ℕ → Frame 11) {cnt : ℕ} (hpos : 0 < cnt) (c : ℕ) :
    score (Main.average scoreHistory cnt) c =
      ((List.range cnt).map fun w => score (scoreHistory w) c).sum.tdiv cnt := by
  have hfits : ∀ x ∈ (List.range cnt).map fun w => score (scoreHistory w) c,
      -2 ^ 7 ≤ x ∧ x < 2 ^ 7 := by
    intro x hx
    obtain ⟨w, -, rfl⟩ := List.mem_map.mp hx
    exact ⟨BitVec.le_toInt _, BitVec.toInt_lt⟩
  obtain ⟨hmin, hmax⟩ := mean_fits hpos (by rw [List.length_map, List.length_range]) hfits
  exact BitVec.toInt_ofInt_eq_self (by norm_num) hmin hmax

/-- **The average over the ring is the mean over the last passes.** -/
theorem score_smooth {t : Tuning} {scoreHistory scores : ℕ → Frame 11} {j : ℕ}
    (h : StreamRing.Holds t.smoothWin scoreHistory scores (j + 1)) (c : ℕ) :
    score (Main.average scoreHistory (min t.smoothWin (j + 1))) c = meanScore t scores j c := by
  have hwin := t.smoothWin_pos
  rw [score_average scoreHistory (by omega) c, meanScore]
  have hperm := (h.perm.map fun frame => score frame c).sum_eq
  rw [List.map_map, List.map_map] at hperm
  exact congrArg (fun sum => Int.tdiv sum _) hperm

/-! ## Announcements -/

/-- What a pass that is not silent announces. -/
def candidate (t : Tuning) (f : ℕ → ℤ) : Option (ℕ × ℤ) :=
  let a := firstMax f (numClasses - 1)
  if a.1 ≠ numClasses - 1 ∧ a.2 > t.kwsDetectThreshold.toInt then some a else none

theorem candidate_eq_some_iff {t : Tuning} {f : ℕ → ℤ} {a : ℕ × ℤ} :
    candidate t f = some a ↔ StandsOut t f a := by
  obtain ⟨hbest, hscore⟩ := isFirstMax_firstMax f (numClasses - 1)
  unfold candidate
  simp only
  constructor
  · intro h
    split at h
    case isFalse => cases h
    case isTrue hc =>
      cases h
      exact ⟨hbest, hscore, hc.1, hc.2⟩
  · rintro ⟨hb, hs, hknown, habove⟩
    have hc : (firstMax f (numClasses - 1)).1 = a.1 := hbest.unique hb
    have ha : firstMax f (numClasses - 1) = a := Prod.ext hc (by rw [hscore, hc, hs])
    rw [ha, if_pos ⟨hknown, habove⟩]

/-- **The end of a pass is a step of the filter.** -/
theorem Main.announce_eq (t : Tuning) (m : Main) :
    let r := Refractory.step t.kwsDebounceHops m.debounceCtr (candidate t (score m.smoothScores))
    m.announce t = { m with
      uart := m.uart ++ r.2.elim [] announcement
      debounceCtr := r.1
      announced := m.announced ++ [r.2] } := by
  unfold Main.announce Refractory.step candidate
  simp only
  split
  · simp only [Option.elim_none, List.append_nil]
  · split
    · rfl
    · simp only [Option.elim_none, List.append_nil]

/-! ## The engine -/

section Push

variable {nn : Nnom} {w : Weights} {samples : List (Frame 1)} {h : ℕ} {c : Session}

/-- The hop in which `gap_head` overflows, whatever the scores buffer holds. -/
theorem After.no_hop {past : List (Frame 1)} (hc : After nn w past h c) (x : Buffer (Frame 1) hop)
    (n : ℕ) (hgt : maxHops < h + 1) (z : Frame 11) :
    runHop nn w { c.engine with sampleBuf := x, samplesPending := n } c.scratch x z = none := by
  have htake := hc.length_take
  have hmax := hc.hops_le
  obtain ⟨hctx, hgap⟩ := hc.keeps x n
  refine runHop_overflow nn w (keep_sized nn w leftPad_sized htake) hctx hgap c.scratch x z ?_ ?_
  · rw [length_conv4 nn w htake]
    simp only [intMax, maxHops] at hmax ⊢
    omega
  · rw [length_conv4_next nn w htake]
    simp only [intMax, maxHops] at hgt ⊢
    omega

/-- **A push of a whole hop** overwrites the scores buffer. -/
theorem After.push_scores {past : List (Frame 1)} (hc : After nn w past h c)
    (hlen : hop ≤ samples.length) (z : Frame 11) :
    kwsStreamBPush nn w { c with scores := z } samples = kwsStreamBPush nn w c samples := by
  have hne : samples ≠ [] := by
    rintro rfl
    exact absurd hlen (by decide)
  obtain ⟨n, buf, -, hle, hfirst, hturn, heq⟩ := hc.turn hne
  have hfull : c.engine.samplesPending + n = hop := by
    rcases hturn with hfull | ⟨hwait, hdrop⟩
    · exact hfull
    · have hall := List.drop_eq_nil_iff.mp hdrop
      omega
  unfold kwsStreamBPush
  rw [heq false z, show pushLoop nn w c false samples = _ from heq false c.scores]
  unfold pushed
  simp only
  rw [if_pos hfull, if_pos hfull]
  rcases Nat.lt_or_ge maxHops (h + 1) with hmax | hmax
  · rw [hc.no_hop buf _ hmax z, hc.no_hop buf _ hmax c.scores]
  · rw [hfull, buf.first_self] at hfirst
    obtain ⟨r, hr, -⟩ := hc.next hfirst (c.engine.samplesPending + n) hmax
    rw [hr z, hr c.scores]

end Push

/-! ## Passes -/

section Passes

variable (depth : ℕ) (i2s : ℕ → BitVec 32) (nn : Nnom) (w : Weights) (t : Tuning)

theorem hop_le_hopBufSz : hop ≤ Hop.hopBufSz depth := by
  unfold Hop.hopBufSz
  split
  · assumption
  · exact le_rfl

theorem length_heard (k : ℕ) : (heard depth i2s k).length = Hop.hopBufSz depth * k := by
  rw [heard, List.length_map, List.length_range]

theorem heard_succ (k : ℕ) :
    heard depth i2s (k + 1) = heard depth i2s k ++
      (List.range (Hop.hopBufSz depth)).map fun i _ =>
        Hop.Sys.sample i2s (Hop.hopBufSz depth * k + i) := by
  unfold heard
  rw [Nat.mul_succ, List.range_add, List.map_append, List.map_map]
  rfl

/-- **Invariant of the main loop** after `k` passes. -/
structure Main.Tracks (k : ℕ) (m : Main) : Prop where
  stream : ∃ h, After nn w (heard depth i2s k) h m.stream
  full : ∀ f ∈ m.stream.log, FullHop f
  history : StreamRing.Holds t.smoothWin m.scoreHistory (scoresAt depth i2s nn w) k
  head : m.scoreHistHead = k % t.smoothWin
  cnt : m.scoreHistCnt = min t.smoothWin k
  length_eq : m.announced.length = k
  reports : Reports t.kwsDebounceHops
    (fun j => candidate t (meanScore t (scoresAt depth i2s nn w) j)) m.announced
  counts : Counts t.kwsDebounceHops m.announced m.debounceCtr
  uart : m.uart = banner t ++ m.announced.flatMap (·.elim [] announcement)

theorem Main.Tracks.init (scratch : Scratch) :
    Main.Tracks depth i2s nn w t 0 (Main.init t scratch) where
  stream := ⟨0, After.start nn w scratch zeroFrame⟩
  full := List.forall_mem_nil _
  history := StreamRing.holds_zero _ _ _
  head := (Nat.zero_mod _).symm
  cnt := (Nat.min_zero _).symm
  length_eq := rfl
  reports := reports_nil _ _
  counts := counts_nil _
  uart := (List.append_nil _).symm

variable {depth i2s nn w t} {k : ℕ} {m : Main}

/-- Behind the push: smoothing and the announcement. -/
theorem Main.Tracks.next (hm : m.Tracks depth i2s nn w t k) {stream : Session}
    (hstream : ∃ h, After nn w (heard depth i2s (k + 1)) h stream)
    (hfull : ∀ f ∈ stream.log, FullHop f) (hscores : stream.scores = scoresAt depth i2s nn w k) :
    ((Main.updateSmooth t { m with stream } stream.scores).announce t).Tracks depth i2s nn w t
      (k + 1) := by
  have hcnt : (if m.scoreHistCnt < t.smoothWin then m.scoreHistCnt + 1 else m.scoreHistCnt) =
      min t.smoothWin (k + 1) := by
    rw [hm.cnt]
    split <;> omega
  have hhistory := hm.history.push
  rw [← hm.head, ← hscores] at hhistory
  -- the smoothed scores are the means of this pass
  have hsmooth : candidate t (score (Main.updateSmooth t { m with stream } stream.scores).smoothScores)
      = candidate t (meanScore t (scoresAt depth i2s nn w) m.announced.length) := by
    unfold Main.updateSmooth
    simp only
    rw [hcnt, hm.length_eq]
    exact congrArg _ (funext (score_smooth hhistory))
  rw [Main.announce_eq, hsmooth]
  unfold Main.updateSmooth
  exact {
    stream := hstream
    full := hfull
    history := hhistory
    head := by
      show (m.scoreHistHead + 1) % t.smoothWin = _
      rw [hm.head, Nat.mod_add_mod]
    cnt := hcnt
    length_eq := by rw [List.length_append, hm.length_eq, List.length_singleton]
    reports := hm.reports.step hm.counts
    counts := hm.counts.step _
    uart := by
      show m.uart ++ _ = _
      rw [hm.uart, List.flatMap_append, List.flatMap_singleton, List.append_assoc] }

/-- **A pass of the main loop**: it goes on as the specification does, unless `gap_head`
overflows. -/
theorem Main.Tracks.pass (hm : m.Tracks depth i2s nn w t k) (z : Frame 11)
    {safeHop : List (BitVec 8)}
    (hhop : safeHop = (List.range (Hop.hopBufSz depth)).map fun i =>
      Hop.Sys.sample i2s (Hop.hopBufSz depth * k + i)) :
    (∃ m', m.pass nn w t z safeHop = some m' ∧ m'.Tracks depth i2s nn w t (k + 1)) ∨
      (m.pass nn w t z safeHop = none ∧
        hop * (maxHops + 1) ≤ Hop.hopBufSz depth * (k + 1)) := by
  obtain ⟨h, hafter⟩ := hm.stream
  have hsamples : heard depth i2s (k + 1) =
      heard depth i2s k ++ safeHop.map fun q7 _ => q7 := by
    rw [heard_succ, hhop, List.map_map]
    rfl
  have hlen : hop ≤ (safeHop.map fun q7 _ => q7 : List (Frame 1)).length := by
    rw [List.length_map, hhop, List.length_map, List.length_range]
    exact hop_le_hopBufSz depth
  unfold Main.pass
  rw [hafter.push_scores hlen z]
  unfold kwsStreamBPush
  rcases pushLoop_spec hafter hm.full false (safeHop.map fun q7 _ => q7) with
    ⟨h', stream, p, hpush, hafter', hfull⟩ | ⟨hpush, hmany⟩
  · left
    rw [hpush, some_bind]
    rw [← hsamples] at hafter'
    refine ⟨_, rfl, hm.next ⟨h', hafter'⟩ hfull ?_⟩
    -- the hops that are complete
    have hall := hafter'.length_eq
    have hpending := hafter'.pending_lt
    rw [length_heard] at hall
    have hh : h' = Hop.hopBufSz depth * (k + 1) / hop := by
      rw [hall, Nat.mul_add_div (by decide : 0 < hop), Nat.div_eq_of_lt hpending, Nat.add_zero]
    rw [hafter'.scores, hh, scoresAt]
    have hmany : hop ≤ Hop.hopBufSz depth * (k + 1) := by
      have hlong := congrArg List.length hsamples
      rw [length_heard, List.length_append] at hlong
      omega
    rw [hh]
    exact Nat.div_pos hmany (by decide)
  · right
    rw [hpush]
    rw [← hsamples, length_heard] at hmany
    exact ⟨rfl, hmany⟩

end Passes

/-! ## Runs -/

/-- Only the push adds to what has been pushed. -/
theorem pushed_step (depth : ℕ) (i2s : ℕ → BitVec 32) (s : Hop.Sys) (e : Hop.Event)
    (hne : ¬ (e = .cpu ∧ s.pc = .push)) : (s.step depth i2s e).pushed = s.pushed := by
  cases e
  case word =>
    unfold Hop.Sys.step Hop.Sys.word
    simp only
    split <;> rfl
  case complete =>
    unfold Hop.Sys.step Hop.Sys.complete
    simp only
    split <;> rfl
  case irq =>
    unfold Hop.Sys.step Hop.Sys.interrupt Hop.Sys.handler
    simp only
    split
    · split <;> rfl
    · rfl
  case cpu =>
    unfold Hop.Sys.step Hop.Sys.cpu
    cases hpc : s.pc
    case push => exact absurd ⟨rfl, hpc⟩ hne
    case asleep | retest =>
      simp only
      split <;> rfl
    all_goals rfl

/-- The push adds one. -/
theorem length_pushed_push (depth : ℕ) (i2s : ℕ → BitVec 32) {s : Hop.Sys} (hpc : s.pc = .push) :
    (s.step depth i2s .cpu).pushed.length = s.pushed.length + 1 := by
  unfold Hop.Sys.step Hop.Sys.cpu
  simp only [hpc, List.length_append, List.length_singleton]

section Runs

variable {depth : ℕ} {i2s : ℕ → BitVec 32} {nn : Nnom} {w : Weights} {t : Tuning}
  {stack : ℕ → Frame 11}

variable (depth i2s nn w t) in
/-- **Invariant of the firmware**: the capture path hands over the samples of the FIFO, and the main
loop has followed them, or `gap_head` has overflowed. -/
structure Detector.Inv (s : Detector) : Prop where
  capture : Hop.Sys.Inv depth i2s s.capture
  main : (∃ m, s.main = some m ∧ m.Tracks depth i2s nn w t s.capture.pushed.length) ∨
    (s.main = none ∧ hop * (maxHops + 1) ≤ Hop.hopBufSz depth * s.capture.pushed.length)

theorem Detector.Inv.init (scratch : Scratch) :
    (Detector.init t scratch).Inv depth i2s nn w t where
  capture := Firmware.Hop.Sys.Inv.init depth i2s
  main := Or.inl ⟨_, rfl, Main.Tracks.init depth i2s nn w t scratch⟩

/-- **A step of the firmware.** -/
theorem Detector.Inv.step {s : Detector} (hs : s.Inv depth i2s nn w t)
    (hdvd : depth ∣ Hop.hopBufSz depth) (e : Hop.Event) :
    (s.step depth i2s nn w t stack e).Inv depth i2s nn w t := by
  refine ⟨hs.capture.step hdvd e, ?_⟩
  by_cases hpush : e = .cpu ∧ s.capture.pc = .push
  · obtain ⟨rfl, hpc⟩ := hpush
    have hlen := length_pushed_push depth i2s hpc
    -- `safe_hop` holds the next hop of the stream
    have hhop : (List.range (Hop.hopBufSz depth)).map s.capture.safeHop =
        (List.range (Hop.hopBufSz depth)).map fun i =>
          Hop.Sys.sample i2s (Hop.hopBufSz depth * s.capture.pushed.length + i) := by
      refine List.map_congr_left fun i hi => hs.capture.copy i ?_
      rw [hpc]
      exact List.mem_range.mp hi
    unfold Detector.step
    simp only [hpc, hlen]
    rcases hs.main with ⟨m, hm, htracks⟩ | ⟨hm, hmany⟩
    · rw [hm, Option.bind_some]
      exact htracks.pass _ hhop
    · rw [hm]
      exact Or.inr ⟨rfl, hmany.trans (Nat.mul_le_mul_left _ (Nat.le_succ _))⟩
  · have hmain : (s.step depth i2s nn w t stack e).main = s.main := by
      unfold Detector.step
      simp only
      split
      · next he hpc => exact absurd ⟨rfl, hpc⟩ hpush
      · rfl
    have hcapture : (s.step depth i2s nn w t stack e).capture.pushed = s.capture.pushed :=
      pushed_step depth i2s s.capture e hpush
    rw [hmain, hcapture]
    exact hs.main

end Runs

/-- **The streaming firmware announces what the batch network hears**, in every interleaving of the
DMA, the trap handler and the main loop. Pass `j` announces class `c` if it stands out in the mean
scores of the last passes, each those of the batch network on the samples of the FIFO so far, and no
pass of the last `KWS_DEBOUNCE_HOPS` has announced one; nothing else is printed. When the hops are
more than `gap_head` can count, the behaviour is undefined. -/
theorem announces (depth : ℕ) (hdvd : depth ∣ Hop.hopBufSz depth) (i2s : ℕ → BitVec 32) (nn : Nnom)
    (w : Weights) (t : Tuning) (stack : ℕ → Frame 11) (scratch : Scratch) (e : ℕ → Hop.Event)
    (n : ℕ) :
    let s := Detector.run depth i2s nn w t stack scratch e n
    let k := s.capture.pushed.length
    (Hop.hopBufSz depth * k < hop * (maxHops + 1) →
      ∃ m, s.main = some m ∧ m.announced.length = k ∧
        m.uart = banner t ++ m.announced.flatMap (·.elim [] announcement) ∧
        ∀ j < k, ∀ a, report m.announced j = some a ↔
          StandsOut t (meanScore t (scoresAt depth i2s nn w) j) a ∧
            ∀ i < j, j ≤ i + t.kwsDebounceHops → report m.announced i = none) ∧
      (hop * (maxHops + 1) ≤ Hop.hopBufSz depth * k → s.main = none) := by
  intro s k
  have hinv : s.Inv depth i2s nn w t :=
    trace_invariant (Detector.Inv depth i2s nn w t) (Detector.Inv.init scratch)
      (fun n h => h.step hdvd (e n)) n
  rcases hinv.main with ⟨m, hm, htracks⟩ | ⟨hm, hmany⟩
  · have hlt : Hop.hopBufSz depth * s.capture.pushed.length < hop * (maxHops + 1) := by
      obtain ⟨h, hafter⟩ := htracks.stream
      have hall := hafter.length_eq
      have hpending := hafter.pending_lt
      have hhops := hafter.hops_le
      rw [length_heard] at hall
      simp only [hop, maxHops] at hall hpending hhops ⊢
      omega
    refine ⟨fun _ => ⟨m, hm, htracks.length_eq, htracks.uart, fun j hj a => ?_⟩,
      fun hge => absurd hge hlt.not_ge⟩
    rw [← candidate_eq_some_iff]
    exact htracks.reports j (htracks.length_eq ▸ hj) a
  · exact ⟨fun hlt => absurd hmany hlt.not_ge, fun _ => hm⟩

/-- The defaults, on bursts of 8 words. -/
theorem announces_byTurns :
    let s := Detector.run 8 (BitVec.ofNat 32) referenceNnom zeroWeights .default (fun _ => zeroFrame)
      zeroScratch Firmware.Hop.Sys.byTurns 20000
    let k := s.capture.pushed.length
    (Hop.hopBufSz 8 * k < hop * (maxHops + 1) →
      ∃ m, s.main = some m ∧ m.announced.length = k ∧
        m.uart = banner .default ++ m.announced.flatMap (·.elim [] announcement) ∧
        ∀ j < k, ∀ a, report m.announced j = some a ↔
          StandsOut .default
            (meanScore .default (scoresAt 8 (BitVec.ofNat 32) referenceNnom zeroWeights) j) a ∧
            ∀ i < j, j ≤ i + Tuning.default.kwsDebounceHops → report m.announced i = none) ∧
      (hop * (maxHops + 1) ≤ Hop.hopBufSz 8 * k → s.main = none) :=
  announces 8 ⟨200, rfl⟩ (BitVec.ofNat 32) referenceNnom zeroWeights .default (fun _ => zeroFrame)
    zeroScratch Firmware.Hop.Sys.byTurns 20000

end KwsSoc.Stream
