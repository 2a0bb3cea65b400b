import KwsSoc.Sim.JtagStream

/-! # Recording and replaying the bit-bang stream

The files of `drain_jtag`: with `--jtagdump` a refill of the receive buffer is also written to a
file, and with `--jtagreplay` the buffer is refilled from such a file until it is exhausted.
**`replays`**: the replay of a dump carries out what the recorded session has carried out, then what
that session had received and not yet carried out, and quits, whatever the sizes of the refills. -/

namespace KwsSoc.Sim

/-! ## Recording -/

/-- What a call refills the receive buffer with. -/
def Line.refill (l : Line) : List Byte :=
  if l.jc.rxRemaining = 0 then (l.polls.headD none).getD [] else []

/-- The simulator with `--jtagdump`. -/
structure Recorder where
  line : Line
  dump : List Byte

/-- One cycle of the main loop: every refill is written to `dump_fd`. -/
def Recorder.step (tdo : Bool) (r : Recorder) : Option Recorder :=
  if r.line.quit then some r
  else do
    let line ← r.line.step tdo
    return ⟨line, r.dump ++ r.line.refill⟩

/-- `n` cycles of a recorded session. -/
def Recorder.run (tdo : ℕ → Bool) (r : Recorder) : ℕ → Option Recorder
  | 0 => some r
  | n + 1 => do
    let r ← r.run tdo n
    r.step (tdo n)

/-- The bytes in the receive buffer that have not been taken yet. -/
def JtagCtx.pending (jc : JtagCtx) : List Byte := (jc.rxbuf.items.drop jc.rxPtr).take jc.rxRemaining

theorem Unread.eq_pending {jc : JtagCtx} {xs : List Byte} (h : Unread jc xs) : xs = jc.pending := by
  rw [JtagCtx.pending, ← h.length_eq]
  exact List.prefix_iff_eq_take.mp h.isPrefix

/-- Nothing is written but what is received, and all of it. -/
theorem refill_append (l : Line) :
    l.refill ++ received (if l.jc.rxRemaining = 0 then l.polls.tail else l.polls) =
      received l.polls := by
  unfold Line.refill
  split
  · cases l.polls <;> rfl
  · rfl

/-- **What `n` cycles have recorded**: the line has performed its part of the stream, and the dump
is what has been received of it. -/
structure Recorded (stream : List Byte) (tdo : ℕ → Bool) (n : ℕ) (r : Recorder) : Prop where
  performed : Performed stream tdo n r.line
  dumped : stream = r.dump ++ received r.line.polls

theorem Recorded.step {stream : List Byte} {tdo : ℕ → Bool} {n : ℕ} {r : Recorder}
    (h : Recorded stream tdo n r) :
    ∃ r', r.step (tdo n) = some r' ∧ Recorded stream tdo (n + 1) r' := by
  obtain ⟨l', hstep, hperformed, -⟩ := h.performed.step
  unfold Recorder.step
  cases hq : r.line.quit with
  | true =>
    -- the loop has been left
    rw [Line.step, if_pos hq] at hstep
    cases hstep
    exact ⟨r, if_pos rfl, hperformed, h.dumped⟩
  | false =>
    refine ⟨⟨l', r.dump ++ r.line.refill⟩, ?_, hperformed, ?_⟩
    · rw [if_neg Bool.false_ne_true, hstep]
      rfl
    · have hpolls : l'.polls =
          if r.line.jc.rxRemaining = 0 then r.line.polls.tail else r.line.polls := by
        rw [Line.step, hq, if_neg Bool.false_ne_true, Option.bind_eq_bind,
          Option.bind_eq_some_iff] at hstep
        obtain ⟨p, -, hp⟩ := hstep
        cases hp
        rfl
      rw [hpolls, List.append_assoc, refill_append]
      exact h.dumped

/-- **Every recorded session** is a session, and its dump is what it has received. -/
theorem Recorded.run {stream : List Byte} {tdo : ℕ → Bool} {r : Recorder}
    (h : Recorded stream tdo 0 r) (n : ℕ) :
    ∃ r', r.run tdo n = some r' ∧ Recorded stream tdo n r' := by
  induction n with
  | zero => exact ⟨r, rfl, h⟩
  | succ n ih =>
    obtain ⟨r₁, hrun, h₁⟩ := ih
    obtain ⟨r₂, hstep, h₂⟩ := h₁.step
    exact ⟨r₂, by rw [Recorder.run, hrun]; exact hstep, h₂⟩

/-- **The dump is what has been done and what is pending.** A session that has quit has done all
that counts. -/
theorem Recorded.commands_dump {stream : List Byte} {tdo : ℕ → Bool} {n : ℕ} {r : Recorder}
    (h : Recorded stream tdo n r) :
    commands r.dump = r.line.log.flatten.map Event.command ++
      if r.line.quit then [] else commands r.line.jc.pending := by
  obtain ⟨done, xs, hstream, hu, hevents, hquit⟩ := h.performed.taken
  have hdump : r.dump = done ++ xs := List.append_cancel_right (h.dumped.symm.trans hstream)
  rw [hdump, hevents, ← hu.eq_pending]
  cases hq : r.line.quit with
  | true => rw [commands_append_of_mem (hquit.mp hq), if_pos rfl, List.append_nil]
  | false =>
    have hmem : ascii 'Q' ∉ done := fun hmem => by
      rw [hquit.mpr hmem] at hq
      cases hq
    rw [commands_append hmem, if_neg Bool.false_ne_true]

/-! ## Replaying -/

/-- `drain_jtag` with `replay_jtag`: `chunk` is what `readsome` returns. -/
def drainReplay (tdo : Bool) (chunk : List Byte) (jc : JtagCtx) : Option (Pass × Bool) :=
  -- the stream is exhausted
  if jc.rxRemaining = 0 ∧ chunk = [] then some (⟨{ jc with rxPtr := 0 }, [], []⟩, true)
  else drainJtag tdo (some chunk) jc

/-- The simulator with `--jtagreplay`: `file` is what is left of the file. -/
structure Replay where
  jc : JtagCtx
  file : List Byte
  log : List (List Event)
  quit : Bool

/-- One cycle of the main loop, with up to `size` bytes from `readsome`. -/
def Replay.step (size : ℕ) (tdo : Bool) (s : Replay) : Option Replay :=
  if s.quit then some s
  else do
    let (p, quit) ← drainReplay tdo (s.file.take size) s.jc
    return {
      jc := p.jc
      file := if s.jc.rxRemaining = 0 then s.file.drop size else s.file
      log := s.log ++ [p.events]
      quit }

/-- `n` cycles of a replay. -/
def Replay.run (size : ℕ → ℕ) (tdo : ℕ → Bool) (s : Replay) : ℕ → Option Replay
  | 0 => some s
  | n + 1 => do
    let s ← s.run size tdo n
    s.step (size n) (tdo n)

/-- A replay that has opened its file. -/
def Replay.start (rxbuf : Buffer Byte jtagRxBuf) (txbuf : Buffer Byte jtagTxBuf)
    (file : List Byte) : Replay :=
  ⟨.start rxbuf txbuf, file, [], false⟩

/-- **What `n` calls have replayed**: the events are the commands of the bytes taken so far; a
replay goes on until it has taken a `Q` or all bytes. -/
structure Replayed (file : List Byte) (n : ℕ) (s : Replay) : Prop where
  taken : ∃ done xs, file = done ++ xs ++ s.file ∧ Unread s.jc xs ∧
    s.log.flatten.map Event.command = commands done ∧
    (s.quit = true → ascii 'Q' ∈ done ∨ xs ++ s.file = []) ∧
    (s.quit = false → ascii 'Q' ∉ done)
  /-- A call writes the pins once at most. -/
  onePerCall : ∀ evs ∈ s.log, (evs.filter Event.isWrite).length ≤ 1
  /-- Every call that goes on has taken a byte. -/
  progress : s.quit = false → n + s.jc.rxRemaining + s.file.length ≤ file.length
  flushed : s.jc.txPtr = 0

section Replay

variable {file : List Byte} {n size : ℕ} {s : Replay}

/-- **A call of `drain_jtag` in a replay** takes the bytes that it finds, and quits if there are
none. -/
theorem drainReplay_spec (tdo : Bool) {chunk : List Byte} {jc : JtagCtx} {xs : List Byte}
    (hu : Unread jc xs) (htx : jc.txPtr = 0) (hle : chunk.length ≤ jtagRxBuf) :
    let ys := available xs (some chunk)
    ∃ jc', drainReplay tdo chunk jc = some (⟨jc', answers (take tdo ys).events,
        (take tdo ys).events⟩, decide (ys = []) || (take tdo ys).quit) ∧
      Unread jc' (take tdo ys).rest ∧ jc'.txPtr = 0 := by
  have hzero : jc.rxRemaining = 0 ↔ xs = [] := by rw [← hu.length_eq, List.length_eq_zero_iff]
  have hnil : available xs (some chunk) = [] ↔ jc.rxRemaining = 0 ∧ chunk = [] := by
    rw [hzero, available]
    split
    · next h => exact (and_iff_right h).symm
    · next h => exact ⟨fun h' => absurd h' h, And.left⟩
  unfold drainReplay
  split
  · next hend =>
    dsimp only
    rw [hnil.mpr hend]
    exact ⟨{ jc with rxPtr := 0 }, rfl, ⟨hend.1.symm, List.nil_prefix⟩, htx⟩
  · next hgoes =>
    have hrecv : ∀ bs, some chunk = some bs → bs.length ≤ jtagRxBuf := by
      rintro bs ⟨⟩
      exact hle
    obtain ⟨jc', hcall, hrest, htx'⟩ := drainJtag_spec tdo hu htx hrecv
    refine ⟨jc', ?_, hrest, htx'⟩
    rw [hcall, decide_eq_false (mt hnil.mp hgoes), Bool.false_or]

/-- A refill moves bytes from the file to the buffer. -/
theorem available_take (xs file : List Byte) (size : ℕ) :
    available xs (some (file.take size)) ++ (if xs = [] then file.drop size else file) =
      xs ++ file := by
  unfold available
  split
  · next hnil => rw [hnil, Option.getD_some, List.take_append_drop, List.nil_append]
  · rfl

/-- A replay finds nothing only at the end of its file. -/
theorem available_take_eq_nil {xs : List Byte} (hpos : 1 ≤ size)
    (h : available xs (some (file.take size)) = []) : xs = [] ∧ file = [] := by
  unfold available at h
  split at h
  · next hnil =>
    refine ⟨hnil, (List.take_eq_nil_iff.mp h).resolve_left ?_⟩
    exact Nat.one_le_iff_ne_zero.mp hpos
  · exact absurd h ‹_›

/-- **One call more.** -/
theorem Replayed.step (h : Replayed file n s) (hpos : 1 ≤ size) (hle : size ≤ jtagRxBuf)
    (tdo : Bool) :
    ∃ s', s.step size tdo = some s' ∧ Replayed file (n + 1) s' := by
  obtain ⟨done, xs, hfile, hu, hevents, -, hgoes⟩ := h.taken
  unfold Replay.step
  cases hq : s.quit with
  | true =>
    refine ⟨s, if_pos rfl, h.taken, h.onePerCall, fun hne => ?_, h.flushed⟩
    exact absurd (hne.symm.trans hq) (by decide)
  | false =>
    have hdone := hgoes hq
    have hprogress := h.progress hq
    have hzero : s.jc.rxRemaining = 0 ↔ xs = [] := by
      rw [← hu.length_eq, List.length_eq_zero_iff]
    obtain ⟨jc, hcall, hrest, htx⟩ :=
      drainReplay_spec tdo hu h.flushed ((List.length_take_le size s.file).trans hle)
    have havail := available_take xs s.file size
    have hnone : available xs (some (s.file.take size)) = [] → xs = [] ∧ s.file = [] :=
      available_take_eq_nil hpos
    generalize available xs (some (s.file.take size)) = ys at hcall hrest havail hnone
    obtain ⟨d, hd, hdevents, hdquit⟩ := take_spec tdo ys
    simp only [Bool.false_eq_true, if_false, hzero, hcall, Option.bind_eq_bind, Option.bind_some]
    refine ⟨_, rfl, ⟨done ++ d, _, ?_, hrest, ?_, fun hquit => ?_, fun hquit => ?_⟩, ?_,
      fun hquit => ?_, htx⟩
    · rw [hfile, List.append_assoc, ← havail]
      conv_lhs => rw [hd]
      simp only [List.append_assoc]
    · rw [List.flatten_append, List.map_append, hevents, commands_append hdone, ← hdevents]
      simp
    · rcases Bool.or_eq_true_iff.mp hquit with hys | hquit
      · -- the file is exhausted
        obtain ⟨rfl, hnil⟩ := hnone (of_decide_eq_true hys)
        rw [of_decide_eq_true hys, hnil]
        exact .inr (by simp [take])
      · exact .inl (List.mem_append_right done (hdquit.mp hquit))
    · rw [List.mem_append, not_or, ← hdquit, (Bool.or_eq_false_iff.mp hquit).2]
      exact ⟨hdone, Bool.false_ne_true⟩
    · intro evs hevs
      rcases List.mem_append.mp hevs with hevs | hevs
      · exact h.onePerCall evs hevs
      · rw [List.mem_singleton.mp hevs]
        exact writes_take tdo ys
    · have hys := List.length_pos_of_ne_nil (of_decide_eq_false (Bool.or_eq_false_iff.mp hquit).1)
      have hlen := length_rest_take tdo ys
      have htotal := congrArg List.length havail
      rw [List.length_append, List.length_append] at htotal
      have hrestlen := hrest.length_eq
      have hxs := hu.length_eq
      dsimp only
      omega

theorem replayed_start (rxbuf : Buffer Byte jtagRxBuf) (txbuf : Buffer Byte jtagTxBuf)
    (file : List Byte) : Replayed file 0 (.start rxbuf txbuf file) where
  taken := ⟨[], [], rfl, ⟨rfl, List.nil_prefix⟩, rfl, nofun, fun _ => List.not_mem_nil⟩
  onePerCall _ hevs := absurd hevs List.not_mem_nil
  progress _ := by simp [Replay.start, JtagCtx.start]
  flushed := rfl

/-- **Every replay** has done what it has taken. -/
theorem Replayed.run (h : Replayed file 0 s) {size : ℕ → ℕ}
    (hsize : ∀ k, 1 ≤ size k ∧ size k ≤ jtagRxBuf) (tdo : ℕ → Bool) (n : ℕ) :
    ∃ s', s.run size tdo n = some s' ∧ Replayed file n s' := by
  induction n with
  | zero => exact ⟨s, rfl, h⟩
  | succ n ih =>
    obtain ⟨s₁, hrun, h₁⟩ := ih
    obtain ⟨s₂, hstep, h₂⟩ := h₁.step (hsize n).1 (hsize n).2 (tdo n)
    exact ⟨s₂, by rw [Replay.run, hrun]; exact hstep, h₂⟩

/-- A replay ends, and has then done all that its file says. -/
theorem Replayed.complete (h : Replayed file n s) (hn : file.length < n) :
    s.quit = true ∧ s.log.flatten.map Event.command = commands file := by
  have hq : s.quit = true := by
    by_contra hq
    have hprogress := h.progress (Bool.not_eq_true _ ▸ hq)
    omega
  obtain ⟨done, xs, hfile, -, hevents, hquit, -⟩ := h.taken
  refine ⟨hq, ?_⟩
  rcases hquit hq with hmem | hnil
  · rw [hevents, hfile, List.append_assoc, commands_append_of_mem hmem]
  · rw [hevents, hfile, List.append_assoc, hnil, List.append_nil]

end Replay

/-- **A replay of a recorded session.** However `recv` has cut the stream and however `readsome`
cuts the file, and whatever `tdo` is in either run: the replay carries out the commands of the
session in their order, followed by those that the session had received without carrying them out
when it was cut off, with one pin write at most in a call, and quits. -/
theorem replays (rxbuf rxbuf' : Buffer Byte jtagRxBuf) (txbuf txbuf' : Buffer Byte jtagTxBuf)
    (polls : List (Option (List Byte)))
    (hchunks : ∀ chunk, some chunk ∈ polls → chunk.length ≤ jtagRxBuf) (tdo tdo' : ℕ → Bool)
    {size : ℕ → ℕ} (hsize : ∀ k, 1 ≤ size k ∧ size k ≤ jtagRxBuf) (n : ℕ) :
    ∃ r, Recorder.run tdo ⟨.start rxbuf txbuf polls, []⟩ n = some r ∧
      ∀ m, r.dump.length < m →
        ∃ s, (Replay.start rxbuf' txbuf' r.dump).run size tdo' m = some s ∧ s.quit = true ∧
          s.log.flatten.map Event.command = r.line.log.flatten.map Event.command ++
            (if r.line.quit then [] else commands r.line.jc.pending) ∧
          ∀ evs ∈ s.log, (evs.filter Event.isWrite).length ≤ 1 := by
  have hstart : Recorded (received polls) tdo 0 ⟨.start rxbuf txbuf polls, []⟩ :=
    ⟨performed_start tdo rxbuf txbuf hchunks, rfl⟩
  obtain ⟨r, hrecord, h⟩ := hstart.run n
  refine ⟨r, hrecord, fun m hm => ?_⟩
  obtain ⟨s, hreplay, hs⟩ := (replayed_start rxbuf' txbuf' r.dump).run hsize tdo' m
  obtain ⟨hquit, hevents⟩ := hs.complete hm
  exact ⟨s, hreplay, hquit, hevents.trans h.commands_dump, hs.onePerCall⟩

/-- A session cut off behind its first call, which has left a read in the buffer, and its replay
byte by byte. -/
theorem replays_cutOff :
    ∃ r, Recorder.run (· = 1) ⟨.start (.fill jtagRxBuf 0) (.fill jtagTxBuf 0)
        [some [ascii '3', ascii 'R'], none, some [ascii 'Q']], []⟩ 1 = some r ∧
      ∀ m, r.dump.length < m →
        ∃ s, (Replay.start (.fill jtagRxBuf 0) (.fill jtagTxBuf 0) r.dump).run (fun _ => 1)
            (fun _ => false) m = some s ∧ s.quit = true ∧
          s.log.flatten.map Event.command = r.line.log.flatten.map Event.command ++
            (if r.line.quit then [] else commands r.line.jc.pending) ∧
          ∀ evs ∈ s.log, (evs.filter Event.isWrite).length ≤ 1 := by
  refine replays _ _ _ _ _ (fun chunk hchunk => ?_) _ _ (fun _ => ⟨le_rfl, by decide⟩) 1
  simp only [List.mem_cons, Option.some.injEq, List.not_mem_nil, or_false, reduceCtorEq,
    false_or] at hchunk
  rcases hchunk with rfl | rfl <;> decide

end KwsSoc.Sim
