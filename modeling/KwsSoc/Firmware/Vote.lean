import KwsSoc.Firmware.Ring

/-! # The soft vote

A model of the vote in `main` of `test/common/kws_bare_main.c`, with the wait and the step that
decide how often it is taken (`Loop.iterate`). The trap handler moves `bytes_written` between any
two reads of it, so that each read of a pass is a value of its own (`Reads`); the values are those
of an unbounded counter, of which the program sees 32 bits. The build is the default one, for any
`KWS_PRINT_INTERVAL_MS` but 0. An `int32_t` that overflows is undefined (`none`). -/

namespace KwsSoc.Firmware.Vote

open Capture

/-! ## The build -/

/-- `NUM_CLASSES`. -/
abbrev numClasses : ℕ := 11

/-- `KWS_CONF_THRESH`. -/
abbrev kwsConfThresh : ℤ := 60

/-- `KWS_MIN_VOTE_CLIPS`. -/
abbrev kwsMinVoteClips : ℤ := 3

/-- `RING_HZ`. -/
abbrev ringHz : ℕ := 8000

/-- `KWS_PRINT_INTERVAL_RING_BYTES`. -/
def kwsPrintIntervalRingBytes (ms : ℕ+) : BitVec 32 :=
  .ofNat 32 ringHz * .ofNat 32 ms / 1000

/-- `KWS_DECIMATE` is 1, with the ring at the rate of the model. -/
theorem kwsDecimate_default : 1 = 1 ∨ 1 = 2 := .inl rfl

/-- The default build. -/
def defaultBuild : Build where
  decimate := 1
  decimate_eq := kwsDecimate_default
  burstWords := 8
  burst_pos := by decide
  burst_dvd := by decide
  policy := .dynamic (.ofNat 32 (ringHz / 50))

/-! ## One pass of the loop -/

/-- `bytes_written` as one pass reads it: at the end of the wait, for `iter_start_bw`, at the check
for audio loss and when it resynchronises, at the gate and when the gate has opened, and for
`bw_now`. -/
structure Reads where
  wait : ℕ
  iterStart : ℕ
  loss : ℕ
  resync : ℕ
  gate : ℕ
  reset : ℕ
  now : ℕ

/-- What a pass reads, and the scores of its inference. -/
structure Pass extends Reads where
  nnomOutputData : ℕ → BitVec 8

/-- The score of class `v`. -/
def Pass.score (x : Pass) (v : ℕ) : ℤ := (x.nnomOutputData v).toInt

/-- The counters and the statics that a pass leaves to the next one. -/
structure Loop where
  bytesAtNextInference : BitVec 32
  lastPrintBw : BitVec 32
  voteScoreSum : ℕ → ℤ
  voteNClips : BitVec 32

/-- What a pass does at the gate: whether it opens, the sums that are compared then, and the class
and the count of the `DETECT` line. -/
structure Outcome where
  printGateOpen : Bool
  voteScoreSum : ℕ → ℤ
  detect : Option (ℕ × ℤ)

/-- A loop that looks for a maximum: its index and its value after entry `n`. -/
def firstMax (f : ℕ → ℤ) : ℕ → ℕ × ℤ
  | 0 => (0, f 0)
  | n + 1 => if f (n + 1) > (firstMax f n).2 then (n + 1, f (n + 1)) else firstMax f n

namespace Loop

/-- The wait is over. -/
def Ready (l : Loop) (r : Reads) : Prop :=
  ¬ (BitVec.ofNat 32 r.wait - l.bytesAtNextInference).toInt < 0

/-- The check for audio loss. -/
def checkLoss (l : Loop) (r : Reads) : Loop :=
  if (BitVec.ofNat 32 r.loss - l.bytesAtNextInference).toInt > defaultBuild.clip then
    { l with bytesAtNextInference := .ofNat 32 r.resync }
  else l

/-- The soft-vote accumulator. -/
def accumulate (l : Loop) (x : Pass) : Option Loop :=
  if (firstMax x.score (numClasses - 1)).2 ≥ kwsConfThresh then
    let sum v := l.voteScoreSum v + x.score v
    if ∀ v < numClasses, -2 ^ 31 ≤ sum v ∧ sum v < 2 ^ 31 then
      some { l with voteScoreSum := sum, voteNClips := l.voteNClips + 1 }
    else none
  else some l

/-- `print_gate_open`. -/
def printGateOpen (ms : ℕ+) (l : Loop) (r : Reads) : Bool :=
  (BitVec.ofNat 32 r.gate - l.lastPrintBw).toInt ≥ (kwsPrintIntervalRingBytes ms).toInt

/-- The winner, the line and the reset. -/
def vote (ms : ℕ+) (l : Loop) (r : Reads) : Loop × Outcome :=
  let printGateOpen := l.printGateOpen ms r
  let voteWinner :=
    if printGateOpen ∧ l.voteNClips.toInt ≥ kwsMinVoteClips then
      (firstMax l.voteScoreSum (numClasses - 1)).1
    else numClasses - 1
  let printClip :=
    (l.voteNClips.toInt ≥ kwsMinVoteClips ∧ voteWinner ≠ numClasses - 1) ∧ printGateOpen
  (if printGateOpen then
    { l with lastPrintBw := .ofNat 32 r.reset, voteNClips := 0, voteScoreSum := fun _ => 0 }
  else l,
  { printGateOpen
    voteScoreSum := l.voteScoreSum
    detect := if printClip then some (voteWinner, l.voteNClips.toInt) else none })

/-- The dynamic step. -/
def advance (l : Loop) (r : Reads) : Loop :=
  { l with
    bytesAtNextInference := l.bytesAtNextInference +
      defaultBuild.stepBytes (.ofNat 32 r.now - .ofNat 32 r.iterStart) }

/-- One pass of the main loop, from the end of its wait on. -/
def iterate (ms : ℕ+) (l : Loop) (x : Pass) : Option (Loop × Outcome) := do
  let l ← (l.checkLoss x.toReads).accumulate x
  let (l, outcome) := l.vote ms x.toReads
  return (l.advance x.toReads, outcome)

/-- The start of `main`'s loop. -/
def start : Loop := ⟨.ofNat 32 defaultBuild.clip, 0, fun _ => 0, 0⟩

end Loop

/-! ## Runs -/

/-- The state after `n` passes. -/
def run (ms : ℕ+) (x : ℕ → Pass) : ℕ → Option Loop
  | 0 => some .start
  | n + 1 => do
    let l ← run ms x n
    return (← l.iterate ms (x n)).1

/-- What pass `k` does at the gate. -/
def outcome (ms : ℕ+) (x : ℕ → Pass) (k : ℕ) : Option Outcome := do
  let l ← run ms x k
  return (← l.iterate ms (x k)).2

/-- `bytes_written` at the end of the last of `n` passes. -/
def written (x : ℕ → Pass) : ℕ → ℕ
  | 0 => 0
  | n + 1 => (x n).now

/-- Later reads find no smaller values. -/
structure Reads.Ordered (r : Reads) : Prop where
  wait_le : r.wait ≤ r.iterStart
  iterStart_le : r.iterStart ≤ r.loss
  loss_le : r.loss ≤ r.resync
  resync_le : r.resync ≤ r.gate
  gate_le : r.gate ≤ r.reset
  reset_le : r.reset ≤ r.now

/-- The first `n` passes are those of a run: `bytes_written` grows, in any way, and each pass begins
when its wait is over. -/
structure IsRun (ms : ℕ+) (x : ℕ → Pass) (n : ℕ) : Prop where
  ordered : ∀ k < n, (x k).Ordered
  grows : ∀ k < n, written x k ≤ (x k).wait
  ready : ∀ k < n, ∀ l ∈ run ms x k, l.Ready (x k).toReads

end KwsSoc.Firmware.Vote
