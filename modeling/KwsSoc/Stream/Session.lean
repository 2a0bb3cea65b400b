import KwsSoc.Stream.Chunking

/-! # The streaming engine equals the batch network

After any pushes the engine is where the batch network is after the same samples: its contexts are
what the layers keep, its GAP ring holds the last conv4 frames, and its buffer the samples of the
hop to come (`After`). `equalsBatch_iff` has the equality for exactly the recordings whose hops do
not overflow `gap_head`, which counts every conv4 frame there has ever been. -/

namespace KwsSoc.Stream

open StreamRing Windows

variable (nn : Nnom) (w : Weights)

/-- The last hop after which `gap_head` is an `int`. -/
abbrev maxHops : ℕ := 687194767

/-- **Invariant of a session**: `heard` are the samples pushed since the reset, `h` of its hops are
complete. -/
structure After (heard : List (Frame 1)) (h : ℕ) (c : Session) : Prop where
  length_eq : heard.length = hop * h + c.engine.samplesPending
  pending_lt : c.engine.samplesPending < hop
  buffered : c.engine.sampleBuf.first c.engine.samplesPending = heard.drop (hop * h)
  contexts : Contexts c.engine (keep nn w leftPad (heard.take (hop * h)))
  gap : GapKeeps c.engine (batch nn w (heard.take (hop * h))).conv4
  log : concat c.log = batch nn w (heard.take (hop * h))
  scores : 0 < h → c.scores = batchScores nn w (heard.take (hop * h))
  hops_le : h ≤ maxHops

/-- A session as `kws_stream_b_reset` begins it. -/
def Session.start (scratch : Scratch) (scores : Frame 11) : Session :=
  ⟨kwsStreamBReset, scratch, scores, []⟩

theorem After.start (scratch : Scratch) (scores : Frame 11) :
    After nn w [] 0 (Session.start scratch scores) := by
  have hbatch : batch nn w (([] : List (Frame 1)).take (hop * 0)) = Stages.empty := network_nil nn w
  refine ⟨rfl, (by decide : 0 < hop), rfl, ?_, ?_, ?_, ?_, Nat.zero_le _⟩
  · rw [List.take_nil, keep_nil]
    exact contexts_reset
  · rw [hbatch]
    exact gapKeeps_reset
  · rw [hbatch]
    rfl
  · intro h
    exact absurd h (lt_irrefl 0)

/-! ## A hop -/

/-- The conv4 frames of `h` hops. -/
theorem length_conv4 {audio : List (Frame 1)} {h : ℕ} (ha : audio.length = hop * h) :
    (batch nn w audio).conv4.length = 25 * h / 4 / 2 := by
  have hlen := (network_sized nn w leftPad_sized ha).conv4
  unfold batch
  rw [hlen]
  show (0 + (0 + 25 * h) / 4) / 2 = _
  rw [Nat.zero_add, Nat.zero_add]

/-- The conv4 frames of `h` hops and of the one that follows are those of `h + 1` hops. -/
theorem length_conv4_next {audio : List (Frame 1)} {h : ℕ} (ha : audio.length = hop * h)
    (x : Buffer (Frame 1) hop) :
    (batch nn w audio).conv4.length + (Net.conv4 nn w (keep nn w leftPad audio) x.items).length =
      25 * (h + 1) / 4 / 2 := by
  have hlen : (audio ++ x.items).length = hop * (h + 1) := by
    rw [List.length_append, ha, x.length_eq, Nat.mul_succ]
  rw [← length_conv4 nn w hlen, batch_conv4, batch_conv4, Net.conv4_append, List.length_append]

section Next

variable {nn w} {heard : List (Frame 1)} {h : ℕ} {c : Session}

theorem After.length_take (hc : After nn w heard h c) :
    (heard.take (hop * h)).length = hop * h := by
  apply List.length_take_of_le
  rw [hc.length_eq]
  exact Nat.le_add_right _ _

/-- The engine with a full buffer keeps what it has kept of the complete hops. -/
theorem After.keeps (hc : After nn w heard h c) (x : Buffer (Frame 1) hop) (n : ℕ) :
    Contexts { c.engine with sampleBuf := x, samplesPending := n }
        (keep nn w leftPad (heard.take (hop * h))) ∧
      GapKeeps { c.engine with sampleBuf := x, samplesPending := n }
        (batch nn w (heard.take (hop * h))).conv4 :=
  ⟨hc.contexts.withSamples n x, ⟨hc.gap.gapHead, hc.gap.gapCount, hc.gap.gapRing⟩⟩

/-- **The next hop**, as long as `gap_head` counts. It does not depend on what the scores were. -/
theorem After.next (hc : After nn w heard h c) {ys : List (Frame 1)} {x : Buffer (Frame 1) hop}
    (hx : x.items = heard.drop (hop * h) ++ ys) (n : ℕ) (hle : h + 1 ≤ maxHops) :
    ∃ r,
      (∀ z, runHop nn w { c.engine with sampleBuf := x, samplesPending := n } c.scratch x z =
        some r) ∧
      FullHop r.frames ∧
      After nn w (heard ++ ys) (h + 1)
        ⟨{ r.engine with samplesPending := 0 }, r.scratch, r.scores, c.log ++ [r.frames]⟩ := by
  have htake := hc.length_take
  obtain ⟨hctx, hgap⟩ := hc.keeps x n
  have hlog := hc.log
  have hall : heard ++ ys = heard.take (hop * h) ++ x.items := by
    rw [hx, ← List.append_assoc, List.take_append_drop]
  generalize heard.take (hop * h) = a at htake hctx hgap hlog hall
  have hsized := keep_sized nn w leftPad_sized htake
  have hfits : (batch nn w a).conv4.length +
      (Net.conv4 nn w (keep nn w leftPad a) x.items).length ≤ intMax := by
    rw [length_conv4_next nn w htake]
    simp only [intMax, maxHops] at hle ⊢
    omega
  obtain ⟨r, hr, hframes, hscores, hctx', hgap'⟩ :=
    runHop_spec nn w hsized hctx hgap c.scratch x hfits
  -- the network goes on from what it has kept
  have hbatch : batch nn w (a ++ x.items) =
      (batch nn w a).append (network nn w (keep nn w leftPad a) x.items) :=
    network_append nn w leftPad a x.items
  have hconv4 : (batch nn w (a ++ x.items)).conv4 =
      (batch nn w a).conv4 ++ Net.conv4 nn w (keep nn w leftPad a) x.items := by
    rw [batch_conv4, batch_conv4, Net.conv4_append]
  rw [← hconv4] at hscores hgap'
  have hlen : (heard ++ ys).length = hop * (h + 1) := by
    rw [hall, List.length_append, htake, x.length_eq, Nat.mul_succ]
  have hwhole : (heard ++ ys).take (hop * (h + 1)) = a ++ x.items := by
    rw [List.take_of_length_le hlen.le, hall]
  refine ⟨r, hr, hframes ▸ fullHop_network nn w hsized x, ?_⟩
  refine ⟨?_, ?_, ?_, ?_, ?_, ?_, ?_, hle⟩
  · exact hlen
  · exact (by decide : 0 < hop)
  · show r.engine.sampleBuf.first 0 = _
    rw [← hlen, List.drop_length, Buffer.first, List.take_zero]
  · rw [hwhole, keep_append]
    exact hctx'.withSamples 0 _
  · rw [hwhole]
    exact ⟨hgap'.gapHead, hgap'.gapCount, hgap'.gapRing⟩
  · rw [hwhole, concat_snoc, hlog, hframes, hbatch]
  · intro _
    rw [hwhole]
    exact hscores

/-- The hop in which `gap_head` overflows. -/
theorem After.overflow (hc : After nn w heard h c) (x : Buffer (Frame 1) hop) (n : ℕ)
    (hgt : maxHops < h + 1) :
    runHop nn w { c.engine with sampleBuf := x, samplesPending := n } c.scratch x c.scores =
      none := by
  have htake := hc.length_take
  have hmax := hc.hops_le
  obtain ⟨hctx, hgap⟩ := hc.keeps x n
  refine runHop_overflow nn w (keep_sized nn w leftPad_sized htake) hctx hgap c.scratch x c.scores
    ?_ ?_
  · rw [length_conv4 nn w htake]
    simp only [intMax, maxHops] at hmax ⊢
    omega
  · rw [length_conv4_next nn w htake]
    simp only [intMax, maxHops] at hgt ⊢
    omega

end Next

/-! ## Pushes -/

variable {nn w} in
/-- Samples that do not complete a hop wait in the buffer. -/
theorem After.wait {heard : List (Frame 1)} {h : ℕ} {c : Session} (hc : After nn w heard h c)
    {ys : List (Frame 1)} {n : ℕ} (hn : ys.length = n) (hlt : c.engine.samplesPending + n < hop)
    {buf : Buffer (Frame 1) hop}
    (hbuf : buf.first (c.engine.samplesPending + n) = heard.drop (hop * h) ++ ys) :
    After nn w (heard ++ ys) h { c with
      engine := { c.engine with
        sampleBuf := buf, samplesPending := c.engine.samplesPending + n } } := by
  have hle : hop * h ≤ heard.length := by
    rw [hc.length_eq]
    exact Nat.le_add_right _ _
  have htake : (heard ++ ys).take (hop * h) = heard.take (hop * h) :=
    List.take_append_of_le_length hle
  refine ⟨?_, hlt, ?_, ?_, ?_, ?_, ?_, hc.hops_le⟩
  · rw [List.length_append, hc.length_eq, hn, Nat.add_assoc]
  · rw [List.drop_append_of_le_length hle]
    exact hbuf
  · rw [htake]
    exact hc.contexts.withSamples _ buf
  · rw [htake]
    exact ⟨hc.gap.gapHead, hc.gap.gapCount, hc.gap.gapRing⟩
  · rw [htake]
    exact hc.log
  · rw [htake]
    exact hc.scores

variable {nn w} in
/-- **A turn of the loop**, whatever the scores buffer holds: a hop is then complete, or no samples
are left. -/
theorem After.turn {heard : List (Frame 1)} {h : ℕ} {c : Session} (hc : After nn w heard h c)
    {samples : List (Frame 1)} (hne : samples ≠ []) :
    ∃ n buf, 0 < n ∧ n ≤ samples.length ∧
      buf.first (c.engine.samplesPending + n) = heard.drop (hop * h) ++ samples.take n ∧
      (c.engine.samplesPending + n = hop ∨
        c.engine.samplesPending + n < hop ∧ samples.drop n = []) ∧
      ∀ produced z, pushLoop nn w { c with scores := z } produced samples =
        pushed nn w { c with scores := z } produced n (samples.drop n) buf := by
  have hpos := List.length_pos_of_ne_nil hne
  have hlt := hc.pending_lt
  generalize hn : min samples.length (hop - c.engine.samplesPending) = n
  have hnpos : 0 < n := by omega
  have hlen : (samples.take n).length = n := by
    rw [List.length_take]
    omega
  obtain ⟨buf, hstore, hfirst, -⟩ := c.engine.sampleBuf.store_first
    (by omega : c.engine.samplesPending + (samples.take n).length ≤ hop)
  rw [hlen, hc.buffered] at hfirst
  refine ⟨n, buf, hnpos, by omega, hfirst, ?_, ?_⟩
  · rcases Nat.lt_or_ge (c.engine.samplesPending + n) hop with hwait | hfull
    · refine Or.inr ⟨hwait, List.drop_eq_nil_of_le ?_⟩
      omega
    · exact Or.inl (by omega)
  · intro produced z
    rw [pushLoop_step nn w { c with scores := z } produced hnpos hn.symm]
    show (c.engine.sampleBuf.store c.engine.samplesPending (samples.take n) >>= _) = _
    rw [hstore, some_bind]

variable {nn w} in
/-- **The push loop**: it ends with all samples heard and all hops full, unless a hop overflows
`gap_head`. The induction is on the samples that are left. -/
theorem pushLoop_spec {heard : List (Frame 1)} {h : ℕ} {c : Session} (hc : After nn w heard h c)
    (hlog : ∀ f ∈ c.log, FullHop f) (produced : Bool) (samples : List (Frame 1)) :
    (∃ h' c' p, pushLoop nn w c produced samples = some (c', p) ∧
      After nn w (heard ++ samples) h' c' ∧ ∀ f ∈ c'.log, FullHop f) ∨
    (pushLoop nn w c produced samples = none ∧
      hop * (maxHops + 1) ≤ (heard ++ samples).length) := by
  induction hn : samples.length using Nat.strongRecOn generalizing heard h c produced samples with
  | ind k ih =>
    by_cases hnil : samples = []
    · rw [hnil, pushLoop_nil, List.append_nil]
      exact Or.inl ⟨h, c, produced, rfl, hc, hlog⟩
    obtain ⟨n, buf, hpos, hle, hfirst, hturn, heq⟩ := hc.turn hnil
    replace heq : pushLoop nn w c produced samples = pushed nn w c produced n (samples.drop n) buf :=
      heq produced c.scores
    have hlen : (samples.take n).length = n := List.length_take_of_le hle
    have hsplit : heard ++ samples = heard ++ samples.take n ++ samples.drop n := by
      rw [List.append_assoc, List.take_append_drop]
    have hshorter : (samples.drop n).length < k := by
      rw [List.length_drop]
      omega
    rw [heq, hsplit]
    unfold pushed
    simp only
    rcases hturn with hfull | ⟨hwait, -⟩
    · -- a hop is complete
      rw [hfull, buf.first_self] at hfirst
      rw [if_pos hfull]
      -- the hop overflows `gap_head`, or is computed and logged
      rcases Nat.lt_or_ge maxHops (h + 1) with hmax | hmax
      · refine Or.inr ⟨?_, ?_⟩
        · rw [hc.overflow buf _ hmax]
          rfl
        · have hh := hc.hops_le
          have hheard := hc.length_eq
          rw [List.length_append, List.length_append, hlen]
          simp only [hop, maxHops] at hmax hh hheard hfull ⊢
          omega
      · obtain ⟨r, hr, hfullHop, hafter⟩ := hc.next hfirst (c.engine.samplesPending + n) hmax
        rw [hr, some_bind]
        have hlog' : ∀ f ∈ c.log ++ [r.frames], FullHop f := by
          intro f hf
          rcases List.mem_append.mp hf with hf | hf
          · exact hlog f hf
          · rw [List.mem_singleton.mp hf]
            exact hfullHop
        exact ih _ hshorter hafter hlog' true _ rfl
    · -- the samples wait for the rest of their hop
      rw [if_neg hwait.ne]
      exact ih _ hshorter (hc.wait hlen hwait hfirst) hlog produced _ rfl

variable {nn w} in
/-- **Any pushes**: they end with all samples heard and all hops full, unless a hop overflows
`gap_head`. -/
theorem pushes_spec {heard : List (Frame 1)} {h : ℕ} {c : Session} (hc : After nn w heard h c)
    (hlog : ∀ f ∈ c.log, FullHop f) (chunks : List (List (Frame 1))) :
    (∃ h' c', pushes nn w c chunks = some c' ∧ After nn w (heard ++ chunks.flatten) h' c' ∧
      ∀ f ∈ c'.log, FullHop f) ∨
    (pushes nn w c chunks = none ∧ hop * (maxHops + 1) ≤ (heard ++ chunks.flatten).length) := by
  induction chunks generalizing heard h c with
  | nil =>
    rw [List.flatten_nil, List.append_nil]
    exact Or.inl ⟨h, c, rfl, hc, hlog⟩
  | cons samples rest ih =>
    rw [List.flatten_cons, ← List.append_assoc]
    unfold pushes kwsStreamBPush
    rcases pushLoop_spec hc hlog false samples with
      ⟨h', c', p, hpush, hafter, hlog'⟩ | ⟨hpush, hlen⟩
    · rw [hpush, some_bind]
      exact ih hafter hlog'
    · rw [hpush]
      refine Or.inr ⟨rfl, ?_⟩
      rw [List.length_append]
      exact le_trans hlen (Nat.le_add_right _ _)

/-- **A session from a reset.** -/
theorem pushes_start (scratch : Scratch) (scores : Frame 11) (chunks : List (List (Frame 1))) :
    (∃ h c, pushes nn w (Session.start scratch scores) chunks = some c ∧
      After nn w chunks.flatten h c ∧ ∀ f ∈ c.log, FullHop f) ∨
    (pushes nn w (Session.start scratch scores) chunks = none ∧
      hop * (maxHops + 1) ≤ chunks.flatten.length) := by
  have hspec := pushes_spec (After.start nn w scratch scores) (List.forall_mem_nil _) chunks
  rwa [List.nil_append] at hspec

/-- The pushes are defined as long as the hops are at most `maxHops`. -/
theorem pushes_of_lt (scratch : Scratch) (scores : Frame 11) {chunks : List (List (Frame 1))}
    (hlt : chunks.flatten.length < hop * (maxHops + 1)) :
    ∃ h c, pushes nn w (Session.start scratch scores) chunks = some c ∧
      After nn w chunks.flatten h c ∧ ∀ f ∈ c.log, FullHop f := by
  rcases pushes_start nn w scratch scores chunks with hsome | ⟨-, hmax⟩
  · exact hsome
  · exact absurd hlt (Nat.not_lt.mpr hmax)

/-- With more hops, one of them overflows `gap_head`. -/
theorem pushes_of_ge (scratch : Scratch) (scores : Frame 11) {chunks : List (List (Frame 1))}
    (hge : hop * (maxHops + 1) ≤ chunks.flatten.length) :
    pushes nn w (Session.start scratch scores) chunks = none := by
  rcases pushes_start nn w scratch scores chunks with ⟨h, c, -, hafter, -⟩ | ⟨hnone, -⟩
  · have hheard := hafter.length_eq
    have hlt := hafter.pending_lt
    have hle := hafter.hops_le
    simp only [hop, maxHops] at hheard hlt hle hge
    omega
  · exact hnone

/-- **Equality with the batch network** for the samples of `chunks`, pushed after a reset: the
pushes are defined, the frames of all hops are those of the network applied once, and the scores are
those of the network unless nothing has been heard. -/
def EqualsBatch (scratch : Scratch) (scores : Frame 11) (chunks : List (List (Frame 1))) : Prop :=
  ∃ c, pushes nn w (Session.start scratch scores) chunks = some c ∧
    concat c.log = batch nn w chunks.flatten ∧
    (chunks.flatten ≠ [] → c.scores = batchScores nn w chunks.flatten)

/-- Whole hops, however they are pushed, up to the overflow of `gap_head`. -/
theorem EqualsBatch.of_le (scratch : Scratch) (scores : Frame 11) {chunks : List (List (Frame 1))}
    {h : ℕ} (hlen : chunks.flatten.length = hop * h) (hle : h ≤ maxHops) :
    EqualsBatch nn w scratch scores chunks := by
  have hshort : chunks.flatten.length < hop * (maxHops + 1) := by
    simp only [hlen, hop, maxHops] at hle ⊢
    omega
  obtain ⟨h', c, hpush, hafter, -⟩ := pushes_of_lt nn w scratch scores hshort
  have hheard := hafter.length_eq
  have hlt := hafter.pending_lt
  -- whole hops leave nothing pending
  have hh : h' = h := by
    simp only [hop] at hheard hlt hlen
    omega
  have hwhole : chunks.flatten.take (hop * h') = chunks.flatten := by
    rw [hh]
    exact List.take_of_length_le hlen.le
  have hlog := hafter.log
  have hscores := hafter.scores
  rw [hwhole] at hlog hscores
  refine ⟨c, hpush, hlog, ?_⟩
  intro hne
  have hpos := List.length_pos_of_ne_nil hne
  apply hscores
  simp only [hop] at hlen
  omega

theorem EqualsBatch.not_of_gt (scratch : Scratch) (scores : Frame 11)
    {chunks : List (List (Frame 1))} {h : ℕ} (hlen : chunks.flatten.length = hop * h)
    (hgt : maxHops < h) : ¬ EqualsBatch nn w scratch scores chunks := by
  rintro ⟨c, hsome, -⟩
  rw [pushes_of_ge nn w scratch scores (hlen ▸ Nat.mul_le_mul_left hop hgt)] at hsome
  cases hsome

/-- **The streaming engine equals the batch causal network** for a recording of `h` hops if and only
if `gap_head` is still an `int` after them. -/
theorem equalsBatch_iff (scratch : Scratch) (scores : Frame 11) (chunks : List (List (Frame 1)))
    (h : ℕ) (hlen : chunks.flatten.length = hop * h) :
    EqualsBatch nn w scratch scores chunks ↔ h ≤ maxHops := by
  constructor
  · intro heq
    by_contra hgt
    exact EqualsBatch.not_of_gt nn w scratch scores hlen (not_le.mp hgt) heq
  · exact EqualsBatch.of_le nn w scratch scores hlen

/-! ### Silence, through reference primitives -/

/-- Saturation to a byte. -/
def ssat8 (x : ℤ) : BitVec 8 := .ofInt 8 (max (-128) (min 127 x))

/-- `(acc + round) >> shift`. -/
def roundShift (acc : ℤ) (shift : ℕ) : ℤ := (acc + 2 ^ shift / 2) / 2 ^ shift

/-- Reference primitives: exact sums, rounded, shifted and saturated. -/
def referenceNnom : Nnom where
  convolve {chIn _ kernelX} c xs o :=
    ssat8 (roundShift ((c.bias o).toInt * 2 ^ (c.biasShift o).toNat +
      ((List.finRange kernelX).map fun i => ((List.finRange chIn).map fun j =>
        (c.weight o i j).toInt * (xs.getD i zeroFrame j).toInt).sum).sum)
      (c.outShift o).toNat)
  relu x := if x.toInt < 0 then 0#8 else x
  maxpool xs i := .ofInt 8 ((xs.map fun x => (x i).toInt).foldl max (-129))
  fullyConnected {dimVec _} d x o :=
    ssat8 (roundShift ((d.bias o).toInt * 2 ^ d.biasShift +
      ((List.finRange dimVec).map fun i => (d.weight o i).toInt * (x i).toInt).sum) d.outShift)
  softmax {ch} x :=
    let base := ((List.finRange ch).map fun i => (x i).toInt).foldl max (-257) - 8
    let total := ((List.finRange ch).map fun i =>
      if (x i).toInt > base then 2 ^ ((x i).toInt - base).toNat else 0).sum
    fun i =>
      if (x i).toInt > base then
        ssat8 (0x100000 / total / 2 ^ (13 + base - (x i).toInt).toNat)
      else 0#8

/-- A network of zeros. -/
def zeroWeights : Weights where
  conv1d := ⟨fun _ _ _ => 0#8, fun _ => 0#8, fun _ => 0, fun _ => 0⟩
  conv1d_1 := ⟨fun _ _ _ => 0#8, fun _ => 0#8, fun _ => 0, fun _ => 0⟩
  conv1d_2 := ⟨fun _ _ _ => 0#8, fun _ => 0#8, fun _ => 0, fun _ => 0⟩
  conv1d_3 := ⟨fun _ _ _ => 0#8, fun _ => 0#8, fun _ => 0, fun _ => 0⟩
  conv1d_4 := ⟨fun _ _ _ => 0#8, fun _ => 0#8, fun _ => 0, fun _ => 0⟩
  dense := ⟨fun _ _ => 0#8, fun _ => 0#8, 0, 0⟩
  dense_1 := ⟨fun _ _ => 0#8, fun _ => 0#8, 0, 0⟩

/-- The scratch arrays before the first hop. -/
def zeroScratch : Scratch where
  sincIn := .fill _ zeroFrame
  sincOut := .fill _ zeroFrame
  conv1In := .fill _ zeroFrame
  conv1Out := .fill _ zeroFrame
  pool1Out := .fill _ zeroFrame
  pool2In := .fill _ zeroFrame
  conv2In := .fill _ zeroFrame
  conv2Out := .fill _ zeroFrame
  pool2Out := .fill _ zeroFrame
  pool3In := .fill _ zeroFrame
  conv3In := .fill _ zeroFrame
  conv3Out := .fill _ zeroFrame
  pool3Out := .fill _ zeroFrame
  conv4In := .fill _ zeroFrame
  conv4Out := .fill _ zeroFrame

/-- `h` pushes of a hop of silence. -/
def silence (h : ℕ) : List (List (Frame 1)) := .replicate h (.replicate hop zeroFrame)

theorem length_silence (h : ℕ) : (silence h).flatten.length = hop * h := by
  unfold silence
  rw [List.length_flatten, List.map_replicate, List.length_replicate, List.sum_replicate,
    Nat.nsmul_eq_mul, Nat.mul_comm]

theorem equalsBatch_silence :
    EqualsBatch referenceNnom zeroWeights zeroScratch zeroFrame (silence 5) :=
  (equalsBatch_iff referenceNnom zeroWeights zeroScratch zeroFrame (silence 5) 5
    (length_silence 5)).mpr (by decide)

/-- **`gap_head` overflows**: in hop 687194768, some four years after the reset. -/
theorem gapHead_overflows :
    ¬ EqualsBatch referenceNnom zeroWeights zeroScratch zeroFrame (silence 687194768) :=
  EqualsBatch.not_of_gt _ _ _ _ (length_silence _) (by decide)

end KwsSoc.Stream
