import KwsSoc.Stream.Helpers

/-! # A hop of the engine

The contexts and partial pools of the engine are what the layers of the batch network keep of their
inputs (`Contexts`). `runHop_eq` runs a hop from such a state up to the GAP ring: its stages produce
the frames of the network, going on from what is kept. The sizes of the scratch arrays suffice, and
neither pool comes out empty. -/

namespace KwsSoc.Stream

open StreamRing Windows

variable (nn : Nnom) (w : Weights)

theorem some_bind {α β : Type} (a : α) (f : α → Option β) : (some a >>= f) = f a := rfl

/-- The contexts and the partial pools hold what is kept. -/
structure Contexts (s : KwsStreamB) (k : Kept) : Prop where
  sinc : s.audioRing.items = k.sinc
  conv1 : s.conv1Ctx.items = k.conv1
  conv2 : s.conv2Ctx.items = k.conv2
  pool2N : s.pool2N = k.pool2.length
  pool2 : s.pool2Buf.first s.pool2N = k.pool2
  conv3 : s.conv3Ctx.items = k.conv3
  pool3N : s.pool3N = k.pool3.length
  pool3 : s.pool3Buf.first s.pool3N = k.pool3
  conv4 : s.conv4Ctx.items = k.conv4

/-- The GAP ring holds the last of the conv4 frames so far. -/
structure GapKeeps (s : KwsStreamB) (past : List (Frame 48)) : Prop where
  gapHead : s.gapHead = past.length
  gapCount : s.gapCount = min nGap past.length
  gapRing : GapHolds s.gapRing past

theorem Contexts.withGap {s : KwsStreamB} {k : Kept} (h : Contexts s k)
    (gapRing : Buffer (Frame 48) nGap) (gapHead gapCount : ℕ) :
    Contexts { s with gapRing, gapHead, gapCount } k :=
  ⟨h.sinc, h.conv1, h.conv2, h.pool2N, h.pool2, h.conv3, h.pool3N, h.pool3, h.conv4⟩

theorem Contexts.withSamples {s : KwsStreamB} {k : Kept} (h : Contexts s k) (samplesPending : ℕ)
    (sampleBuf : Buffer (Frame 1) hop) : Contexts { s with samplesPending, sampleBuf } k :=
  ⟨h.sinc, h.conv1, h.conv2, h.pool2N, h.pool2, h.conv3, h.pool3N, h.pool3, h.conv4⟩

theorem contexts_reset : Contexts kwsStreamBReset leftPad :=
  ⟨rfl, rfl, rfl, rfl, rfl, rfl, rfl, rfl, rfl⟩

theorem gapKeeps_reset : GapKeeps kwsStreamBReset [] := ⟨rfl, rfl, holds_zero _ _ _⟩

/-! ## Up to the GAP ring -/

/-- The sinc stage. -/
theorem sinc_spec {s : KwsStreamB} {k : Kept} (hk : k.Sized) (hs : s.audioRing.items = k.sinc)
    (scr : Scratch) (x : Buffer (Frame 1) hop) :
    ∃ in₁ in₂ out₁ out₂ ring,
      scr.sincIn.memcpy 0 s.audioRing 0 128 = some in₁ ∧ in₁.memcpy 128 x 0 hop = some in₂ ∧
        localWindowed 129 16 (nn.convolve w.conv1d) in₂ (128 + hop) scr.sincOut nSincPerHop =
          some out₁ ∧
        reluInplace nn out₁ nSincPerHop = some out₂ ∧
        s.audioRing.memcpy 0 x (hop - 128) 128 = some ring ∧
        out₂.first nSincPerHop = Net.sinc nn w k x.items ∧
        ring.items = (keep nn w k x.items).sinc := by
  obtain ⟨in₁, in₂, h₁, h₂, hin⟩ := scr.sincIn.join_first s.audioRing x (le_refl (128 + hop))
    (le_refl 128) (le_refl hop)
  obtain ⟨out₁, hconv, hout₁⟩ := localWindowed_spec (nn.convolve w.conv1d) in₂ scr.sincOut
    (le_refl (128 + hop)) (by decide : nSincPerHop = count 129 16 (128 + hop)) (le_refl nSincPerHop)
  obtain ⟨out₂, hrelu, hout₂⟩ := reluInplace_spec nn out₁ (le_refl nSincPerHop)
  obtain ⟨ring, hring, hitems⟩ := s.audioRing.memcpy_items x (by decide : 0 + 128 ≤ 128)
    (by decide : hop - 128 + 128 ≤ hop)
  refine ⟨in₁, in₂, out₁, out₂, ring, h₁, h₂, hconv, hrelu, hring, ?_, ?_⟩
  · rw [hout₂, hout₁, hin, s.audioRing.first_self, x.first_self, hs]
    exact convLayer_apply nn w.conv1d _ _ _
  · -- the last 128 samples of the hop
    have hx : (k.sinc ++ x.items).length = 128 + hop := by
      rw [List.length_append, hk.sinc, x.length_eq]
    have hkeep : (keep nn w k x.items).sinc =
        (k.sinc ++ x.items).drop (count 129 16 (k.sinc ++ x.items).length * 16) := rfl
    have hcount : count 129 16 (128 + hop) * 16 = k.sinc.length + (hop - 128) := by
      rw [hk.sinc]
      decide
    have hlast : (x.items.drop (hop - 128)).take 128 = x.items.drop (hop - 128) := by
      apply List.take_of_length_le
      rw [List.length_drop, x.length_eq]
      decide
    rw [hkeep, hx, hcount, ← List.drop_drop, List.drop_left, hitems, Buffer.first, List.take_zero,
      List.nil_append, hlast, List.drop_of_length_le s.audioRing.length_eq.le, List.append_nil]

/-- A convolution stage: the new frames behind the context, and the context that is then kept. -/
theorem conv_spec {chIn chOut n m c : ℕ} (l : Conv chIn chOut 3) {ctx : Buffer (Frame chIn) 2}
    {kept xs : List (Frame chIn)} (hctx : ctx.items = kept) (scratchIn : Buffer (Frame chIn) n)
    {newFrames : Buffer (Frame chIn) m} {nNew : ℕ} (hxs : newFrames.first nNew = xs)
    (out : Buffer (Frame chOut) c) (hnew : nNew ≤ m) (hscratch : 2 + nNew ≤ n) (hout : nNew ≤ c) :
    ∃ scratchIn' out₁ out₂ ctx',
      causalConv1d nn l scratchIn ctx 2 newFrames nNew out = some (scratchIn', out₁) ∧
        reluInplace nn out₁ nNew = some out₂ ∧ updateCtx2 ctx newFrames nNew = some ctx' ∧
        out₂.first nNew = (conv3Layer nn l).apply (kept ++ xs) ∧
        ctx'.items = (conv3Layer nn l).rest (kept ++ xs) := by
  obtain ⟨s', out₁, out₂, hconv, hrelu, hout₂⟩ := causalConv1d_spec nn l scratchIn ctx newFrames out
    hnew hscratch hout
  obtain ⟨ctx', hupdate, hctx'⟩ := updateCtx2_spec ctx newFrames hnew
  have hk : kept.length = 2 := by rw [← hctx, ctx.length_eq]
  have hlen : xs.length = nNew := by rw [← hxs, newFrames.length_first hnew]
  refine ⟨s', out₁, out₂, ctx', hconv, hrelu, hupdate, ?_, ?_⟩
  · rw [hout₂, hctx, hxs]
  · rw [conv3Layer_rest nn l hk, hctx', hctx, hxs, hlen]

/-- What `run_hop` has done before conv3. -/
structure UpToPool2 (s s₂ : KwsStreamB) (k : Kept) (audio : List (Frame 1)) : Prop where
  sinc : s₂.audioRing.items = (keep nn w k audio).sinc
  conv1 : s₂.conv1Ctx.items = (keep nn w k audio).conv1
  conv2 : s₂.conv2Ctx.items = (keep nn w k audio).conv2
  pool2 : s₂.pool2Buf.first s₂.pool2N = (keep nn w k audio).pool2
  pool2N : s₂.pool2N ≤ 3
  later : s₂ = { s with
    audioRing := s₂.audioRing, conv1Ctx := s₂.conv1Ctx, conv2Ctx := s₂.conv2Ctx,
    pool2Buf := s₂.pool2Buf, pool2N := s₂.pool2N }

/-- **A hop up to pool2.** -/
theorem runHop_eq {s : KwsStreamB} {k : Kept} (hk : k.Sized) (hs : Contexts s k) (scr : Scratch)
    (x : Buffer (Frame 1) hop) :
    ∃ s₂ scr₂ pool2Out nPool2,
      (∀ scores, runHop nn w s scr x scores = runHopConv3 nn w s₂ scr₂ scores pool2Out nPool2
        { network nn w k x.items with conv3 := [], pool3 := [], conv4 := [] }) ∧
      UpToPool2 nn w s s₂ k x.items ∧ pool2Out.first nPool2 = Net.pool2 nn w k x.items ∧
      nPool2 = (k.pool2.length + 25) / 4 := by
  obtain ⟨sincIn₁, sincIn₂, sincOut₁, sincOut₂, audioRing, h₁, h₂, h₃, h₄, h₅, hsinc, hring⟩ :=
    sinc_spec nn w hk hs.sinc scr x
  obtain ⟨conv1In, conv1Out₁, conv1Out₂, conv1Ctx, h₆, h₇, h₈, hconv1, hctx1⟩ := conv_spec nn
    w.conv1d_1 hs.conv1 scr.conv1In hsinc scr.conv1Out (le_refl nSincPerHop) (le_refl _) (le_refl _)
  replace hconv1 : conv1Out₂.first nSincPerHop = Net.conv1 nn w k x.items := hconv1
  -- pool1 is exact
  obtain ⟨pool1Out, h₉, hpool1⟩ := maxpoolValid_spec nn (by decide : 0 < 4) conv1Out₂ scr.pool1Out
    (le_refl nSincPerHop) (le_refl 25)
  have h25 : nSincPerHop / 4 = 25 := rfl
  rw [h25] at h₉ hpool1
  replace hpool1 : pool1Out.first 25 = Net.pool1 nn w k x.items := by
    rw [hpool1, hconv1]
    unfold Net.pool1
    rw [List.eq_nil_of_length_eq_zero hk.pool1]
    rfl
  obtain ⟨conv2In, conv2Out₁, conv2Out₂, conv2Ctx, h₁₀, h₁₁, h₁₂, hconv2, hctx2⟩ := conv_spec nn
    w.conv1d_2 hs.conv2 scr.conv2In hpool1 scr.conv2Out (le_refl 25) (le_refl 27) (le_refl 25)
  replace hconv2 : conv2Out₂.first 25 = Net.conv2 nn w k x.items := hconv2
  -- pool2: up to 3 pending frames
  have hn := hs.pool2N
  have hlt := hk.pool2
  obtain ⟨p2, h₁₃, hout, hleft, hpool2, hrest⟩ := poolWithPartial_spec nn (by decide : 0 < 4)
    s.pool2Buf conv2Out₂ scr.pool2In scr.pool2Out (by omega : s.pool2N ≤ 3) (le_refl 25)
    (by omega : s.pool2N + 25 ≤ 28) (by omega) (by omega)
  rw [hs.pool2, hconv2] at hpool2 hrest
  have hpos : p2.nOut ≠ 0 := by omega
  rw [hn] at hout hleft
  refine ⟨{ s with
      audioRing, conv1Ctx, conv2Ctx, pool2Buf := p2.partialBuf, pool2N := p2.partialN },
    { scr with
      sincIn := sincIn₂, sincOut := sincOut₂, conv1In, conv1Out := conv1Out₂, pool1Out, conv2In,
      conv2Out := conv2Out₂, pool2In := p2.scratch, pool2Out := p2.out },
    p2.out, p2.nOut, ?_, ⟨hring, hctx1, hctx2, hrest, by show p2.partialN ≤ 3; omega, rfl⟩, hpool2,
    hout⟩
  intro scores
  unfold runHop
  simp only [h₁, h₂, h₃, h₄, h₅, h₆, h₇, h₈, h₉, h₁₀, h₁₁, h₁₂, h₁₃, some_bind, if_neg hpos, hsinc,
    hconv1, hpool1, hconv2, hpool2]
  rfl

/-- **From conv3 to pool3.** -/
theorem runHopConv3_eq (s : KwsStreamB) (scr : Scratch) {k : Kept} {audio : List (Frame 1)}
    (hk : k.Sized) (hconv3 : s.conv3Ctx.items = k.conv3) (hpool3N : s.pool3N = k.pool3.length)
    (hpool3 : s.pool3Buf.first s.pool3N = k.pool3)
    {pool2Out : Buffer (Frame 48) 7} {nPool2 : ℕ}
    (hout : pool2Out.first nPool2 = Net.pool2 nn w k audio) (hle : nPool2 ≤ 7) (hge : 2 ≤ nPool2)
    (frames : Stages) :
    ∃ conv3Ctx pool3Buf pool3N scr₃ pool3Out nPool3,
      (∀ scores, runHopConv3 nn w s scr scores pool2Out nPool2 frames =
        runHopConv4 nn w { s with conv3Ctx, pool3Buf, pool3N } scr₃ pool3Out nPool3
          { frames with conv3 := Net.conv3 nn w k audio, pool3 := Net.pool3 nn w k audio }) ∧
      conv3Ctx.items = (keep nn w k audio).conv3 ∧
      pool3Buf.first pool3N = (keep nn w k audio).pool3 ∧ pool3N ≤ 1 ∧
      pool3Out.first nPool3 = Net.pool3 nn w k audio ∧ nPool3 = (k.pool3.length + nPool2) / 2 := by
  obtain ⟨conv3In, conv3Out₁, conv3Out₂, conv3Ctx, h₁, h₂, h₃, hconv, hctx⟩ := conv_spec nn
    w.conv1d_3 hconv3 scr.conv3In hout scr.conv3Out hle (by omega : 2 + nPool2 ≤ 9) hle
  replace hconv : conv3Out₂.first nPool2 = Net.conv3 nn w k audio := hconv
  -- up to 1 pending frame
  have hlt := hk.pool3
  obtain ⟨p3, h₄, hn, hleft, hpool, hrest⟩ := poolWithPartial_spec nn (by decide : 0 < 2)
    s.pool3Buf conv3Out₂ scr.pool3In scr.pool3Out (by omega : s.pool3N ≤ 1) hle
    (by omega : s.pool3N + nPool2 ≤ 8) (by omega) (by omega)
  rw [hpool3, hconv] at hpool hrest
  rw [hpool3N] at hn hleft
  replace hpool : p3.out.first p3.nOut = Net.pool3 nn w k audio := hpool
  have hpos : p3.nOut ≠ 0 := by omega
  refine ⟨conv3Ctx, p3.partialBuf, p3.partialN,
    { scr with conv3In, conv3Out := conv3Out₂, pool3In := p3.scratch, pool3Out := p3.out },
    p3.out, p3.nOut, ?_, hctx, hrest, by omega, hpool, hn⟩
  intro scores
  unfold runHopConv3
  simp only [h₁, h₂, h₃, h₄, some_bind, if_neg hpos, hconv, hpool]

/-! ## The GAP ring and the scores -/

/-- **From conv4 on**, as long as `gap_head` does not overflow. -/
theorem runHopConv4_spec {s : KwsStreamB} (scr : Scratch) {k : Kept} {audio : List (Frame 1)}
    {past : List (Frame 48)} (hconv4 : s.conv4Ctx.items = k.conv4) (hgap : GapKeeps s past)
    {pool3Out : Buffer (Frame 48) 4} {nPool3 : ℕ}
    (hout : pool3Out.first nPool3 = Net.pool3 nn w k audio) (hle : nPool3 ≤ 4) (hpos : 0 < nPool3)
    (frames : Stages) (hmax : past.length + nPool3 ≤ intMax) :
    ∃ conv4Ctx gapRing scr₄, runHopConv4 nn w s scr pool3Out nPool3 frames = some ⟨
        { s with
          conv4Ctx, gapRing, gapHead := (past ++ Net.conv4 nn w k audio).length,
          gapCount := min nGap (past ++ Net.conv4 nn w k audio).length },
        scr₄, head nn w (gapAverage (lastGap (past ++ Net.conv4 nn w k audio))),
        { frames with conv4 := Net.conv4 nn w k audio }⟩ ∧
      conv4Ctx.items = (keep nn w k audio).conv4 ∧
      GapHolds gapRing (past ++ Net.conv4 nn w k audio) := by
  obtain ⟨conv4In, conv4Out₁, conv4Out₂, conv4Ctx, h₁, h₂, h₃, hconv, hctx⟩ := conv_spec nn
    w.conv1d_4 hconv4 scr.conv4In hout scr.conv4Out hle (by omega : 2 + nPool3 ≤ 6) hle
  have hlen := conv4Out₂.length_first hle
  replace hconv : conv4Out₂.first nPool3 = Net.conv4 nn w k audio := hconv
  rw [hconv] at hlen
  obtain ⟨ring, hpush, hring⟩ := gapPush_spec hgap.gapRing (Net.conv4 nn w k audio) (by omega)
  generalize hall : past ++ Net.conv4 nn w k audio = all at hpush hring ⊢
  have hcount : min nGap all.length ≠ 0 := by
    refine (Nat.lt_min.mpr ⟨by decide, ?_⟩).ne'
    rw [← hall, List.length_append]
    omega
  have hread := ring.read_first (Nat.min_le_left nGap all.length)
  refine ⟨conv4Ctx, ring, { scr with conv4In, conv4Out := conv4Out₂ }, ?_, hctx, hring⟩
  unfold runHopConv4
  simp only [h₁, h₂, h₃, hconv, hgap.gapHead, hgap.gapCount, hpush, hread, some_bind, if_neg hcount,
    hring.average]
  rfl

/-- From conv4 on, when `gap_head` overflows. -/
theorem runHopConv4_overflow {s : KwsStreamB} (scr : Scratch) {k : Kept} {audio : List (Frame 1)}
    {past : List (Frame 48)} (hconv4 : s.conv4Ctx.items = k.conv4) (hgap : GapKeeps s past)
    {pool3Out : Buffer (Frame 48) 4} {nPool3 : ℕ}
    (hout : pool3Out.first nPool3 = Net.pool3 nn w k audio) (hle : nPool3 ≤ 4)
    (frames : Stages) (hpast : past.length ≤ intMax) (hmax : intMax < past.length + nPool3) :
    runHopConv4 nn w s scr pool3Out nPool3 frames = none := by
  obtain ⟨conv4In, conv4Out₁, conv4Out₂, conv4Ctx, h₁, h₂, h₃, hconv, -⟩ := conv_spec nn
    w.conv1d_4 hconv4 scr.conv4In hout scr.conv4Out hle (by omega : 2 + nPool3 ≤ 6) hle
  have hlen := conv4Out₂.length_first hle
  have hpush := gapPush_overflow hgap.gapRing (conv4Out₂.first nPool3) hpast (by omega)
  unfold runHopConv4
  simp only [h₁, h₂, h₃, hgap.gapHead, hgap.gapCount, hpush, some_bind]
  rfl

/-! ## Whole hops -/

/-- The frames of a hop that has run to its end: 6 or 7 after pool2, 3 or 4 after pool3, and conv3
and conv4 after them. -/
structure FullHop (f : Stages) : Prop where
  pool2 : f.pool2.length = 6 ∨ f.pool2.length = 7
  conv3 : f.conv3.length = f.pool2.length
  pool3 : f.pool3.length = 3 ∨ f.pool3.length = 4
  conv4 : f.conv4.length = f.pool3.length

/-- A hop of the network is one. -/
theorem fullHop_network {k : Kept} (hk : k.Sized) (x : Buffer (Frame 1) hop) :
    FullHop (network nn w k x.items) := by
  have hx : x.items.length = hop * 1 := x.length_eq
  have hnet := network_sized nn w hk hx
  have hp2 := hk.pool2
  have hp3 := hk.pool3
  constructor
  · rw [hnet.pool2]
    omega
  · rw [hnet.conv3, hnet.pool2]
  · rw [hnet.pool3]
    omega
  · rw [hnet.conv4, hnet.pool3]

/-- **A hop up to conv4**, which it reaches whatever the scores buffer holds. -/
theorem runHop_toConv4 {s : KwsStreamB} {k : Kept} (hk : k.Sized) (hs : Contexts s k) (scr : Scratch)
    (x : Buffer (Frame 1) hop) :
    ∃ s₃ scr₃ pool3Out nPool3,
      (∀ scores, runHop nn w s scr x scores = runHopConv4 nn w s₃ scr₃ pool3Out nPool3
        { network nn w k x.items with conv4 := [] }) ∧
      s₃.conv4Ctx = s.conv4Ctx ∧ s₃.gapRing = s.gapRing ∧ s₃.gapHead = s.gapHead ∧
      s₃.gapCount = s.gapCount ∧ pool3Out.first nPool3 = Net.pool3 nn w k x.items ∧
      nPool3 = (Net.conv4 nn w k x.items).length ∧ 3 ≤ nPool3 ∧ nPool3 ≤ 4 ∧
      ∀ conv4Ctx : Buffer (Frame 48) 2, conv4Ctx.items = (keep nn w k x.items).conv4 →
        Contexts { s₃ with conv4Ctx } (keep nn w k x.items) := by
  have hx : x.items.length = hop * 1 := x.length_eq
  have hnet := network_sized nn w hk hx
  have hconv4 : (Net.conv4 nn w k x.items).length = _ := hnet.conv4
  have hp2 := hk.pool2
  have hp3 := hk.pool3
  obtain ⟨s₂, scr₂, pool2Out, nPool2, heq₂, hup, hpool2, hn2⟩ := runHop_eq nn w hk hs scr x
  have hlater := hup.later
  obtain ⟨conv3Ctx, pool3Buf, pool3N, scr₃, pool3Out, nPool3, heq₃, hconv3, hpool3, hn3, hout, hn⟩ :=
    runHopConv3_eq nn w s₂ scr₂ hk (by rw [hlater]; exact hs.conv3)
      (by rw [hlater]; exact hs.pool3N) (by rw [hlater]; exact hs.pool3) hpool2 (by omega)
      (by omega) { network nn w k x.items with conv3 := [], pool3 := [], conv4 := [] }
  refine ⟨{ s₂ with conv3Ctx, pool3Buf, pool3N }, scr₃, pool3Out, nPool3,
    fun scores => (heq₂ scores).trans (heq₃ scores), ?_, ?_, ?_, ?_, hout, by omega, by omega,
    by omega, ?_⟩
  · rw [hlater]
  · rw [hlater]
  · rw [hlater]
  · rw [hlater]
  · intro conv4Ctx h4
    have hlen2 := s₂.pool2Buf.length_first hup.pool2N
    have hlen3 := pool3Buf.length_first hn3
    rw [hup.pool2] at hlen2
    rw [hpool3] at hlen3
    exact ⟨hup.sinc, hup.conv1, hup.conv2, hlen2.symm, hup.pool2, hconv3, hlen3.symm, hpool3, h4⟩

/-- **A hop of the engine is a hop of the network**, as long as `gap_head` does not overflow. -/
theorem runHop_spec {s : KwsStreamB} {k : Kept} {past : List (Frame 48)} (hk : k.Sized)
    (hs : Contexts s k) (hgap : GapKeeps s past) (scr : Scratch) (x : Buffer (Frame 1) hop)
    (hmax : past.length + (Net.conv4 nn w k x.items).length ≤ intMax) :
    ∃ r, (∀ scores, runHop nn w s scr x scores = some r) ∧ r.frames = network nn w k x.items ∧
      r.scores = head nn w (gapAverage (lastGap (past ++ Net.conv4 nn w k x.items))) ∧
      Contexts r.engine (keep nn w k x.items) ∧
      GapKeeps r.engine (past ++ Net.conv4 nn w k x.items) := by
  obtain ⟨s₃, scr₃, pool3Out, nPool3, heq, h4, hring, hhead, hcount, hout, hn, hge, hle, hctx⟩ :=
    runHop_toConv4 nn w hk hs scr x
  have hgap₃ : GapKeeps s₃ past :=
    ⟨hhead.trans hgap.gapHead, hcount.trans hgap.gapCount, hring ▸ hgap.gapRing⟩
  obtain ⟨conv4Ctx, gapRing, scr₄, hsome, hconv4, hholds⟩ := runHopConv4_spec nn w scr₃
    (h4 ▸ hs.conv4) hgap₃ hout hle (by omega) { network nn w k x.items with conv4 := [] } (by omega)
  exact ⟨_, fun scores => (heq scores).trans hsome, rfl, rfl,
    (hctx conv4Ctx hconv4).withGap _ _ _, ⟨rfl, rfl, hholds⟩⟩

/-- **A hop that overflows `gap_head`.** -/
theorem runHop_overflow {s : KwsStreamB} {k : Kept} {past : List (Frame 48)} (hk : k.Sized)
    (hs : Contexts s k) (hgap : GapKeeps s past) (scr : Scratch) (x : Buffer (Frame 1) hop)
    (scores : Frame 11) (hpast : past.length ≤ intMax)
    (hmax : intMax < past.length + (Net.conv4 nn w k x.items).length) :
    runHop nn w s scr x scores = none := by
  obtain ⟨s₃, scr₃, pool3Out, nPool3, heq, h4, hring, hhead, hcount, hout, hn, hge, hle, -⟩ :=
    runHop_toConv4 nn w hk hs scr x
  have hgap₃ : GapKeeps s₃ past :=
    ⟨hhead.trans hgap.gapHead, hcount.trans hgap.gapCount, hring ▸ hgap.gapRing⟩
  rw [heq scores]
  exact runHopConv4_overflow nn w scr₃ (h4 ▸ hs.conv4) hgap₃ hout hle _ hpast (by omega)

end KwsSoc.Stream
