import KwsSoc.Stream.Session

/-! # The streaming buffers

The scratch arrays are sized for hops of 6 or 7 pool2 frames and 3 or 4 pool3 frames, which depend
on what the two partial pools have left (`After` has both). So no hop overruns them or returns
early, and a push that returns 1 has written the scores (`After.scores_written`). What does end the
engine is `gap_head`: `buffersSafe_iff` has the streams it survives. -/

namespace KwsSoc.Stream

variable (nn : Nnom) (w : Weights)

/-- What holds in a state between two pushes: the counters stay within their buffers, every hop so
far has run to its end, and a push that returns 1 writes the scores, whatever the buffer held. -/
structure WithinBuffers (c : Session) : Prop where
  pool2N : c.engine.pool2N ≤ 3
  pool3N : c.engine.pool3N ≤ 1
  samplesPending : c.engine.samplesPending < hop
  fullHops : ∀ f ∈ c.log, FullHop f
  written : ∀ samples c', kwsStreamBPush nn w c samples = some (c', true) →
    ∀ z, kwsStreamBPush nn w { c with scores := z } samples = some (c', true)

/-- **Safe buffers**: the pushes of `chunks` after a reset access nothing outside the arrays, and
end within the buffers. -/
def BuffersSafe (scratch : Scratch) (scores : Frame 11) (chunks : List (List (Frame 1))) : Prop :=
  ∃ c, pushes nn w (Session.start scratch scores) chunks = some c ∧ WithinBuffers nn w c

variable {nn w} in
/-- The partial pools hold at most 3 and 1 frames. -/
theorem After.partials_le {heard : List (Frame 1)} {h : ℕ} {c : Session}
    (hc : After nn w heard h c) : c.engine.pool2N ≤ 3 ∧ c.engine.pool3N ≤ 1 := by
  have hsized := keep_sized nn w leftPad_sized hc.length_take
  have hp2 := hsized.pool2
  have hp3 := hsized.pool3
  have hn2 := hc.contexts.pool2N
  have hn3 := hc.contexts.pool3N
  omega

variable {nn w} in
/-- **The scores are written** by a push in which a hop was complete. The first complete hop writes
them, whatever they were. -/
theorem After.scores_written {heard : List (Frame 1)} {h : ℕ} {c : Session}
    (hc : After nn w heard h c) {samples : List (Frame 1)} {c' : Session}
    (hpush : pushLoop nn w c false samples = some (c', true)) (z : Frame 11) :
    pushLoop nn w { c with scores := z } false samples = some (c', true) := by
  have hne : samples ≠ [] := by
    rintro rfl
    rw [pushLoop_nil] at hpush
    cases hpush
  obtain ⟨n, buf, -, -, hfirst, hturn, heq⟩ := hc.turn hne
  replace hpush : pushed nn w c false n (samples.drop n) buf = some (c', true) :=
    (heq false c.scores).symm.trans hpush
  rw [heq false z]
  unfold pushed at hpush ⊢
  simp only at hpush ⊢
  -- no induction: the first turn completes a hop, or is the last
  rcases hturn with hfull | ⟨hwait, hlast⟩
  · -- `run_hop` overwrites the scores; from there both runs are the same
    rw [if_pos hfull] at hpush ⊢
    rw [hfull, buf.first_self] at hfirst
    rcases Nat.lt_or_ge maxHops (h + 1) with hmax | hmax
    · rw [hc.overflow buf _ hmax] at hpush
      cases hpush
    · obtain ⟨r, hr, -, -⟩ := hc.next hfirst (c.engine.samplesPending + n) hmax
      rw [hr c.scores] at hpush
      rw [hr z]
      exact hpush
  · -- all samples wait, and no hop is complete
    rw [if_neg hwait.ne, hlast, pushLoop_nil] at hpush
    cases hpush

variable {nn w} in
/-- A state that a run reaches. -/
theorem After.withinBuffers {heard : List (Frame 1)} {h : ℕ} {c : Session}
    (hc : After nn w heard h c) (hlog : ∀ f ∈ c.log, FullHop f) : WithinBuffers nn w c :=
  ⟨hc.partials_le.1, hc.partials_le.2, hc.pending_lt, hlog,
    fun _ _ hpush z => hc.scores_written hpush z⟩

/-- As long as `gap_head` counts, the buffers are safe. -/
theorem BuffersSafe.of_lt (scratch : Scratch) (scores : Frame 11) {chunks : List (List (Frame 1))}
    (hlt : chunks.flatten.length < hop * (maxHops + 1)) :
    BuffersSafe nn w scratch scores chunks := by
  obtain ⟨h, c, hpush, hafter, hlog⟩ := pushes_of_lt nn w scratch scores hlt
  exact ⟨c, hpush, hafter.withinBuffers hlog⟩

theorem BuffersSafe.not_of_ge (scratch : Scratch) (scores : Frame 11)
    {chunks : List (List (Frame 1))} (hge : hop * (maxHops + 1) ≤ chunks.flatten.length) :
    ¬ BuffersSafe nn w scratch scores chunks := by
  rintro ⟨c, hsome, -⟩
  rw [pushes_of_ge nn w scratch scores hge] at hsome
  cases hsome

/-- **The streaming buffers are never overrun and every hop yields scores**, in whatever pushes the
audio comes, if and only if at most `maxHops` hops are complete since the reset. -/
theorem buffersSafe_iff (scratch : Scratch) (scores : Frame 11) (chunks : List (List (Frame 1))) :
    BuffersSafe nn w scratch scores chunks ↔ chunks.flatten.length < hop * (maxHops + 1) := by
  constructor
  · intro hsafe
    by_contra hge
    exact BuffersSafe.not_of_ge nn w scratch scores (Nat.not_lt.mp hge) hsafe
  · exact BuffersSafe.of_lt nn w scratch scores

/-- **The ring is overrun**: in hop 687194768 the next slot is that of an `int` past its largest. -/
theorem buffers_overrun :
    ¬ BuffersSafe referenceNnom zeroWeights zeroScratch zeroFrame (silence 687194768) :=
  BuffersSafe.not_of_ge _ _ _ _ (by rw [length_silence])

end KwsSoc.Stream
