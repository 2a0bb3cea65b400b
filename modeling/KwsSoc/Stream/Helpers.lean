import KwsSoc.Lib.StreamRing
import KwsSoc.Stream.Batch

/-! # What the engine's helpers compute

One lemma for each helper of `kws_stream_b.c`: when its frames fit, it is defined, and the first
frames of its output are a layer of the batch network, applied to what the layer has kept and to the
new frames. -/

namespace KwsSoc.Stream

open StreamRing Windows

variable (nn : Nnom) {n m c ch chIn chOut : ℕ}

/-! ## Primitives -/

theorem localWindowed_spec {α β : Type} {kernel stride : ℕ} (f : List α → β) (inp : Buffer α n)
    {dimIn : ℕ} (out : Buffer β m) {dimOut : ℕ} (hin : dimIn ≤ n)
    (hdim : dimOut = count kernel stride dimIn) (hout : dimOut ≤ m) :
    ∃ out', localWindowed kernel stride f inp dimIn out dimOut = some out' ∧
      out'.first dimOut = (windows kernel stride (inp.first dimIn)).map f := by
  have hlen : (windows kernel stride (inp.first dimIn)).length = dimOut := by
    rw [length_windows, inp.length_first hin, hdim]
  have hmap : ((windows kernel stride (inp.first dimIn)).map f).length = dimOut := by
    rw [List.length_map, hlen]
  obtain ⟨out', hstore, hfirst, -⟩ :=
    out.store_first (by omega : 0 + ((windows kernel stride (inp.first dimIn)).map f).length ≤ m)
  refine ⟨out', ?_, ?_⟩
  · unfold localWindowed
    rw [inp.read_first hin]
    simp only [Option.bind_eq_bind, Option.bind_some]
    rw [if_pos hdim.le, List.take_of_length_le hlen.le]
    exact hstore
  · rw [Nat.zero_add, hmap] at hfirst
    exact hfirst

theorem reluInplace_spec (buf : Buffer (Frame ch) n) {nFrames : ℕ} (h : nFrames ≤ n) :
    ∃ buf', reluInplace nn buf nFrames = some buf' ∧
      buf'.first nFrames = (buf.first nFrames).map (reluFrame nn) := by
  have hlen : ((buf.first nFrames).map (reluFrame nn)).length = nFrames := by
    rw [List.length_map, buf.length_first h]
  obtain ⟨buf', hstore, hfirst, -⟩ :=
    buf.store_first (by omega : 0 + ((buf.first nFrames).map (reluFrame nn)).length ≤ n)
  refine ⟨buf', ?_, ?_⟩
  · unfold reluInplace
    rw [buf.read_first h]
    exact hstore
  · rw [Nat.zero_add, hlen] at hfirst
    exact hfirst

/-! ## Convolutions -/

/-- A windowed primitive and its ReLU are a layer. -/
theorem convLayer_apply {kernelX stride : ℕ} (l : Conv chIn chOut kernelX) (hpos : 0 < stride)
    (hle : stride ≤ kernelX) (xs : List (Frame chIn)) :
    ((windows kernelX stride xs).map (nn.convolve l)).map (reluFrame nn) =
      (convLayer nn l stride hpos hle).apply xs := by
  rw [List.map_map]
  rfl

/-- **`causal_conv1d` and `relu_inplace`**: the convolution, behind its context. -/
theorem causalConv1d_spec (l : Conv chIn chOut 3) (scratchIn : Buffer (Frame chIn) n)
    (ctx : Buffer (Frame chIn) 2) (newFrames : Buffer (Frame chIn) m) {nNew : ℕ}
    (out : Buffer (Frame chOut) c) (hnew : nNew ≤ m) (hscratch : 2 + nNew ≤ n) (hout : nNew ≤ c) :
    ∃ scratchIn' out₁ out₂,
      causalConv1d nn l scratchIn ctx 2 newFrames nNew out = some (scratchIn', out₁) ∧
        reluInplace nn out₁ nNew = some out₂ ∧
        out₂.first nNew = (conv3Layer nn l).apply (ctx.items ++ newFrames.first nNew) := by
  obtain ⟨s₁, s₂, h₁, h₂, hfirst⟩ := scratchIn.join_first ctx newFrames hscratch (le_refl 2) hnew
  obtain ⟨out₁, hconv, hout₁⟩ := localWindowed_spec (nn.convolve l) s₂ out hscratch
    (count_conv3 nNew).symm hout
  obtain ⟨out₂, hrelu, hout₂⟩ := reluInplace_spec nn out₁ hout
  refine ⟨s₂, out₁, out₂, ?_, hrelu, ?_⟩
  · unfold causalConv1d
    simp only [Option.bind_eq_bind, Option.bind_some, h₁, h₂, hconv]
    rfl
  · rw [hout₂, hout₁, hfirst, ctx.first_self]
    exact convLayer_apply nn l _ _ _

/-- `update_ctx2` keeps the last two frames of the context and the new frames. -/
theorem updateCtx2_spec (ctx : Buffer (Frame ch) 2) (frames : Buffer (Frame ch) n) {nFrames : ℕ}
    (h : nFrames ≤ n) :
    ∃ ctx', updateCtx2 ctx frames nFrames = some ctx' ∧
      ctx'.items = (ctx.items ++ frames.first nFrames).drop nFrames := by
  obtain ⟨x, y, hctx⟩ : ∃ x y, ctx.items = [x, y] := List.length_eq_two.mp ctx.length_eq
  have hlen := frames.length_first h
  unfold updateCtx2
  by_cases h2 : nFrames ≥ 2
  · -- the context is replaced
    obtain ⟨c₁, h₁, hc₁⟩ := ctx.memcpy_items frames (by decide : 0 + 1 ≤ 2)
      (by omega : nFrames - 2 + 1 ≤ n)
    obtain ⟨c₂, h₂, hc₂⟩ := c₁.memcpy_items frames (by decide : 1 + 1 ≤ 2)
      (by omega : nFrames - 1 + 1 ≤ n)
    obtain ⟨d, rfl⟩ := Nat.exists_eq_add_of_le' h2
    obtain ⟨u, v, rest, hd⟩ : ∃ u v rest, frames.items.drop d = u :: v :: rest := by
      -- there are two frames from `d` on
      have h2' : 2 ≤ (frames.items.drop d).length := by
        rw [List.length_drop, frames.length_eq]
        omega
      match hm : frames.items.drop d, h2' with
      | u :: v :: rest, _ => exact ⟨u, v, rest, rfl⟩
    have hd1 : frames.items.drop (d + 1) = v :: rest := by
      rw [← List.drop_drop, hd]
      rfl
    refine ⟨c₂, by rw [if_pos h2, h₁]; exact h₂, ?_⟩
    rw [Nat.add_sub_cancel, hd, Buffer.first, hctx] at hc₁
    rw [Nat.add_sub_assoc (by decide), hd1, Buffer.first, hc₁] at hc₂
    rw [hc₂, hctx, Buffer.first]
    show [u, v] = (frames.items.take (d + 2)).drop d
    rw [List.drop_take, hd, Nat.add_sub_cancel_left]
    rfl
  · by_cases h1 : nFrames = 1
    · -- the context is shifted
      subst h1
      obtain ⟨c₁, h₁, hc₁⟩ := ctx.memcpy_items ctx (by decide : 0 + 1 ≤ 2) (by decide : 1 + 1 ≤ 2)
      obtain ⟨c₂, h₂, hc₂⟩ := c₁.copy_first frames (by decide : 1 + 1 ≤ 2) h
      refine ⟨c₂, by rw [if_neg h2, if_pos rfl, h₁]; exact h₂, ?_⟩
      rw [c₂.first_self, Buffer.first, hc₁, hctx] at hc₂
      rw [hc₂, hctx]
      rfl
    · have h0 : nFrames = 0 := by omega
      refine ⟨ctx, by rw [if_neg h2, if_neg h1], ?_⟩
      rw [h0, Buffer.first, List.take_zero, List.append_nil, List.drop_zero]

/-- What a convolution keeps: the last two frames. -/
theorem conv3Layer_rest (l : Conv chIn chOut 3) {kept xs : List (Frame chIn)} (hk : kept.length = 2) :
    (conv3Layer nn l).rest (kept ++ xs) = (kept ++ xs).drop xs.length := by
  have hc : count (conv3Layer nn l).kernel (conv3Layer nn l).stride (kept ++ xs).length =
      xs.length := by
    rw [List.length_append, hk]
    exact count_conv3 xs.length
  unfold Layer.rest carry
  rw [hc]
  show (kept ++ xs).drop (xs.length * 1) = _
  rw [Nat.mul_one]

/-! ## Pools -/

/-- A pool does not look at an incomplete last group. -/
theorem poolLayer_complete {k : ℕ} (hk : 0 < k) (xs : List (Frame 48)) :
    (poolLayer nn k hk).apply (xs.take (xs.length / k * k)) = (poolLayer nn k hk).apply xs := by
  have hle := Nat.div_mul_le_self xs.length k
  have hlen : (xs.take (xs.length / k * k)).length = xs.length / k * k := by
    rw [List.length_take, Nat.min_eq_left hle]
  have hrest : (poolLayer nn k hk).rest (xs.take (xs.length / k * k)) = [] := by
    apply List.eq_nil_of_length_eq_zero
    rw [(length_pool hk _).2, hlen, Nat.mul_mod_left]
  have hdrop : (poolLayer nn k hk).apply (xs.drop (xs.length / k * k)) = [] := by
    apply List.eq_nil_of_length_eq_zero
    rw [(length_pool hk _).1, List.length_drop]
    have hdm := Nat.div_add_mod' xs.length k
    have hlt := Nat.mod_lt xs.length hk
    exact Nat.div_eq_of_lt (by omega)
  -- the frames behind the last whole group give no window
  conv_rhs => rw [← List.take_append_drop (xs.length / k * k) xs]
  rw [Layer.apply_append, hrest, List.nil_append, hdrop, List.append_nil]

theorem maxpoolValid_spec {k : ℕ} (hk : 0 < k) (inp : Buffer (Frame 48) n) {nIn : ℕ}
    (out : Buffer (Frame 48) m) (hin : nIn ≤ n) (hout : nIn / k ≤ m) :
    ∃ out', maxpoolValid nn inp nIn k out = some (out', nIn / k) ∧
      out'.first (nIn / k) = (poolLayer nn k hk).apply (inp.first nIn) := by
  unfold maxpoolValid
  by_cases h0 : nIn / k = 0
  · refine ⟨out, by simp only [h0, if_true], ?_⟩
    rw [h0]
    refine (List.eq_nil_of_length_eq_zero ?_).symm
    rw [(length_pool hk _).1, inp.length_first hin, h0]
  · obtain ⟨out', hpool, hfirst⟩ := localWindowed_spec nn.maxpool inp out hin
      (count_pool hk nIn).symm hout
    refine ⟨out', ?_, hfirst⟩
    simp only [if_neg h0, hpool]
    rfl

/-- **`pool_with_partial`**: the pool, behind the pending frames, which are what it keeps. -/
theorem poolWithPartial_spec {k k' : ℕ} (hk : 0 < k) (partialBuf : Buffer (Frame 48) n) {partialN : ℕ}
    (newFrames : Buffer (Frame 48) k') {nNew : ℕ} (scratch : Buffer (Frame 48) m)
    (out : Buffer (Frame 48) c) (hpending : partialN ≤ n) (hnew : nNew ≤ k')
    (hscratch : partialN + nNew ≤ m) (hout : (partialN + nNew) / k ≤ c)
    (hleft : (partialN + nNew) % k ≤ n) :
    ∃ r, poolWithPartial nn partialBuf partialN newFrames nNew k scratch out = some r ∧
      r.nOut = (partialN + nNew) / k ∧ r.partialN = (partialN + nNew) % k ∧
      r.out.first r.nOut =
        (poolLayer nn k hk).apply (partialBuf.first partialN ++ newFrames.first nNew) ∧
      r.partialBuf.first r.partialN =
        (poolLayer nn k hk).rest (partialBuf.first partialN ++ newFrames.first nNew) := by
  obtain ⟨s₁, s₂, h₁, h₂, hfirst⟩ := scratch.join_first partialBuf newFrames hscratch hpending hnew
  generalize hxs : partialBuf.first partialN ++ newFrames.first nNew = xs at hfirst ⊢
  generalize ht : partialN + nNew = total at hscratch hout hleft hfirst ⊢
  have hlen : xs.length = total := by
    rw [← hxs, List.length_append, partialBuf.length_first hpending, newFrames.length_first hnew, ht]
  have hdm := Nat.div_add_mod' total k
  have hgroups : total / k * k / k = total / k := Nat.mul_div_cancel _ hk
  obtain ⟨out', hpool, hout'⟩ := maxpoolValid_spec nn hk s₂ out
    (by omega : total / k * k ≤ m) (by omega : total / k * k / k ≤ c)
  rw [hgroups] at hpool hout'
  -- the pool is given whole groups only
  have htake : s₂.first (total / k * k) = xs.take (xs.length / k * k) := by
    rw [hlen, ← hfirst, Buffer.first, Buffer.first, List.take_take, Nat.min_eq_left (by omega)]
  obtain ⟨p', hp, hitems⟩ := partialBuf.memcpy_items s₂ (by omega : 0 + total % k ≤ n)
    (by omega : total / k * k + total % k ≤ m)
  have hleftover : total - total / k * k = total % k := by omega
  -- without a whole group the pool is not called, and would not have written
  have hnone : ¬ total / k > 0 → out = out' := by
    intro h0
    have hz : total / k = 0 := Nat.eq_zero_of_not_pos h0
    rw [hz, Nat.zero_mul, maxpoolValid] at hpool
    simp only [Nat.zero_div, if_true, Option.some.injEq, Prod.mk.injEq, and_true] at hpool
    exact hpool
  refine ⟨⟨p', total % k, s₂, out', total / k⟩, ?_, rfl, rfl, ?_, ?_⟩
  · unfold poolWithPartial
    simp only [Option.bind_eq_bind, Option.bind_some, ht, h₁, h₂, hleftover, hp]
    by_cases h0 : total / k > 0
    · rw [if_pos h0, hpool]
      rfl
    · rw [if_neg h0, hnone h0]
      rfl
  · rw [← poolLayer_complete nn hk xs, ← htake]
    exact hout'
  · have hrest : (poolLayer nn k hk).rest xs = xs.drop (total / k * k) := by
      unfold Layer.rest carry
      show xs.drop (count k k xs.length * k) = _
      rw [count_pool hk, hlen]
    have hdrop : p'.items.take (total % k) = (s₂.items.drop (total / k * k)).take (total % k) := by
      rw [hitems, Buffer.first, List.take_zero, List.nil_append]
      rw [List.take_append_of_le_length, List.take_take, Nat.min_self]
      rw [List.length_take, List.length_drop, s₂.length_eq]
      omega
    show p'.items.take (total % k) = _
    rw [hrest, hdrop, ← hfirst, Buffer.first, List.drop_take, hleftover]

/-! ## The GAP ring -/

/-- The ring holds the last 15 of the conv4 frames so far. -/
def GapHolds (ring : Buffer (Frame 48) nGap) (frames : List (Frame 48)) : Prop :=
  Holds nGap (fun i => ring.items.getD i zeroFrame) (fun i => frames.getD i zeroFrame) frames.length

theorem GapHolds.push {ring : Buffer (Frame 48) nGap} {frames : List (Frame 48)}
    (h : GapHolds ring frames) (x : Frame 48) :
    ∃ ring', ring.store (frames.length % nGap) [x] = some ring' ∧ GapHolds ring' (frames ++ [x]) := by
  have hslot : frames.length % nGap + [x].length ≤ nGap := Nat.mod_lt _ (by decide)
  obtain ⟨ring', hstore, -, hitems⟩ := ring.store_first hslot
  have hstream : ∀ i < frames.length, frames.getD i zeroFrame = (frames ++ [x]).getD i zeroFrame := by
    intro i hi
    rw [List.getD_eq_getElem?_getD, List.getD_eq_getElem?_getD, List.getElem?_append_left hi]
  have hnew : x = (frames ++ [x]).getD frames.length zeroFrame := by
    rw [List.getD_eq_getElem?_getD, List.getElem?_append_right (le_refl _), Nat.sub_self]
    rfl
  have hring : (fun i => ring'.items.getD i zeroFrame) = Function.update (fun i => ring.items.getD i zeroFrame)
      (frames.length % nGap) ((frames ++ [x]).getD frames.length zeroFrame) := by
    have hset : ring'.items = ring.items.set (frames.length % nGap) x := by
      rw [hitems, List.set_eq_take_append_cons_drop, ring.length_eq, if_pos (Nat.mod_lt _ (by decide)),
        List.append_assoc]
      rfl
    rw [← hnew]
    -- slot by slot: the one written, and the others
    funext i
    simp only [hset, List.getD_eq_getElem?_getD]
    by_cases hi : i = frames.length % nGap
    · rw [hi, Function.update_self, List.getElem?_set_self]
      · rfl
      · rw [ring.length_eq]
        exact Nat.mod_lt _ (by decide)
    · rw [Function.update_of_ne hi, List.getElem?_set_ne (Ne.symm hi)]
  refine ⟨ring', hstore, ?_⟩
  unfold GapHolds
  rw [hring, List.length_append]
  exact (Holds.congr h hstream).push

/-- The fill count after a frame. -/
theorem gapFill_succ (past : List (Frame 48)) (x : Frame 48) :
    (if min nGap past.length < nGap then min nGap past.length + 1 else min nGap past.length) =
      min nGap (past ++ [x]).length := by
  have hlen : (past ++ [x]).length = past.length + 1 := List.length_append
  rw [hlen]
  split <;> omega

/-- **The GAP loop**: defined as long as `gap_head` does not overflow. -/
theorem gapPush_spec {ring : Buffer (Frame 48) nGap} {past : List (Frame 48)} (h : GapHolds ring past)
    (frames : List (Frame 48)) (hmax : past.length + frames.length ≤ intMax) :
    ∃ ring', gapPush ring past.length (min nGap past.length) frames =
        some (ring', (past ++ frames).length, min nGap (past ++ frames).length) ∧
      GapHolds ring' (past ++ frames) := by
  induction frames generalizing ring past with
  | nil =>
    rw [List.append_nil]
    exact ⟨ring, rfl, h⟩
  | cons x rest ih =>
    obtain ⟨ring₁, hstore, h₁⟩ := h.push x
    rw [List.length_cons] at hmax
    have hlen : (past ++ [x]).length = past.length + 1 := List.length_append
    obtain ⟨ring', hrest, h'⟩ := ih h₁ (by omega)
    rw [List.append_assoc, List.singleton_append] at hrest h'
    refine ⟨ring', ?_, h'⟩
    unfold gapPush
    simp only [Option.bind_eq_bind, Option.bind_some, hstore]
    rw [if_pos (by omega), gapFill_succ past x, ← hlen, hrest]

/-- The GAP loop over frames that take `gap_head` past `INT_MAX`. -/
theorem gapPush_overflow {ring : Buffer (Frame 48) nGap} {past : List (Frame 48)}
    (h : GapHolds ring past) (frames : List (Frame 48)) (hpast : past.length ≤ intMax)
    (hmax : intMax < past.length + frames.length) :
    gapPush ring past.length (min nGap past.length) frames = none := by
  induction frames generalizing ring past with
  | nil => exact absurd hmax (by rw [List.length_nil]; omega)
  | cons x rest ih =>
    obtain ⟨ring₁, hstore, h₁⟩ := h.push x
    rw [List.length_cons] at hmax
    have hlen : (past ++ [x]).length = past.length + 1 := List.length_append
    unfold gapPush
    simp only [Option.bind_eq_bind, Option.bind_some, hstore]
    by_cases hlt : past.length < intMax
    · rw [if_pos hlt, gapFill_succ past x, ← hlen]
      exact ih h₁ (by omega) (by omega)
    · -- the increment of `gap_head` overflows at this frame
      rw [if_neg hlt]

/-- **The slots in use** hold the last conv4 frames, each once. -/
theorem GapHolds.perm {ring : Buffer (Frame 48) nGap} {frames : List (Frame 48)}
    (h : GapHolds ring frames) :
    (ring.first (min nGap frames.length)).Perm (lastGap frames) := by
  have hp := Holds.perm h
  rw [List.range_eq_range', map_getD_range' _ (by rw [ring.length_eq]; omega),
    map_getD_range' _ (by omega), List.drop_zero] at hp
  -- at most 15 frames stand behind the drop
  have hlast : (frames.drop (frames.length - nGap)).take (min nGap frames.length) =
      lastGap frames := by
    apply List.take_of_length_le
    rw [List.length_drop]
    omega
  rw [hlast] at hp
  exact hp

/-- **The GAP average** is that of the last conv4 frames: the order of the slots does not matter. -/
theorem GapHolds.average {ring : Buffer (Frame 48) nGap} {frames : List (Frame 48)}
    (h : GapHolds ring frames) :
    gapAverage (ring.first (min nGap frames.length)) = gapAverage (lastGap frames) := by
  have hperm := h.perm
  funext i
  unfold gapAverage
  rw [(hperm.map _).sum_eq, hperm.length_eq]

end KwsSoc.Stream
