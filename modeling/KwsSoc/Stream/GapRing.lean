import KwsSoc.Stream.Session

/-! # The GAP ring over unbounded runs

`gap_head` is the number of conv4 frames since the reset, and the slot of a frame is what that
number leaves modulo 15. **`gapExact_iff`**: the ring is exact for as long as the number is an
`int`, and no longer. -/

namespace KwsSoc.Stream

variable (nn : Nnom) (w : Weights)

/-- **An exact GAP ring** after the pushes of `chunks`: they are defined (every slot lies in the
ring, and `gap_head` never overflows), and the slots in use hold the last frames of all that the
hops have produced, each once. -/
def GapExact (scratch : Scratch) (scores : Frame 11) (chunks : List (List (Frame 1))) : Prop :=
  ∃ c, pushes nn w (Session.start scratch scores) chunks = some c ∧
    c.engine.gapHead ≤ intMax ∧
    c.engine.gapCount = min nGap (concat c.log).conv4.length ∧
    (c.engine.gapRing.first c.engine.gapCount).Perm (lastGap (concat c.log).conv4)

variable {nn w} in
/-- The head of the ring is an `int` between two pushes. -/
theorem After.gapHead_le {heard : List (Frame 1)} {h : ℕ} {c : Session}
    (hc : After nn w heard h c) : c.engine.gapHead ≤ intMax := by
  have hle := hc.hops_le
  rw [hc.gap.gapHead, length_conv4 nn w hc.length_take]
  simp only [intMax, maxHops] at hle ⊢
  omega

theorem GapExact.of_lt (scratch : Scratch) (scores : Frame 11) {chunks : List (List (Frame 1))}
    (hlt : chunks.flatten.length < hop * (maxHops + 1)) :
    GapExact nn w scratch scores chunks := by
  obtain ⟨h, c, hpush, hafter, -⟩ := pushes_of_lt nn w scratch scores hlt
  have hcount := hafter.gap.gapCount
  have hperm := hafter.gap.gapRing.perm
  -- the frames of the hops are those of the network
  rw [← hafter.log] at hcount hperm
  rw [← hcount] at hperm
  exact ⟨c, hpush, hafter.gapHead_le, hcount, hperm⟩

theorem GapExact.not_of_ge (scratch : Scratch) (scores : Frame 11) {chunks : List (List (Frame 1))}
    (hge : hop * (maxHops + 1) ≤ chunks.flatten.length) :
    ¬ GapExact nn w scratch scores chunks := by
  rintro ⟨c, hsome, -⟩
  rw [pushes_of_ge nn w scratch scores hge] at hsome
  cases hsome

/-- **The GAP ring holds the last 15 conv4 frames** of any pushes if and only if at most `maxHops`
hops are complete since the reset. -/
theorem gapExact_iff (scratch : Scratch) (scores : Frame 11) (chunks : List (List (Frame 1))) :
    GapExact nn w scratch scores chunks ↔ chunks.flatten.length < hop * (maxHops + 1) := by
  constructor
  · intro hexact
    by_contra hge
    exact GapExact.not_of_ge nn w scratch scores (Nat.not_lt.mp hge) hexact
  · exact GapExact.of_lt nn w scratch scores

/-- The ring is not exact after hop 687194768 of silence. -/
theorem gapRing_lost :
    ¬ GapExact referenceNnom zeroWeights zeroScratch zeroFrame (silence 687194768) :=
  GapExact.not_of_ge _ _ _ _ (by rw [length_silence])

end KwsSoc.Stream
