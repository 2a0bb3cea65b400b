import KwsSoc.Stream.Engine

/-! # The batch causal network

What the streaming engine is for: the network of `kws_stream_b.h`, applied once to a whole
recording. Convolutions are padded on the left with zero frames, a kernel's width less one
(`leftPad`); pools take complete groups. `network_append` applies the network to a recording in two
pieces: every layer goes on from what it has kept of its own input (`keep`). -/

namespace KwsSoc.Stream

open Windows

/-! ## Layers -/

/-- A convolution and its ReLU. -/
def convLayer (nn : Nnom) {chIn chOut kernelX : ℕ} (c : Conv chIn chOut kernelX) (stride : ℕ)
    (hpos : 0 < stride) (hle : stride ≤ kernelX) : Layer (Frame chIn) (Frame chOut) where
  kernel := kernelX
  stride := stride
  stride_pos := hpos
  stride_le := hle
  out xs := reluFrame nn (nn.convolve c xs)

/-- The sinc layer: width 129, stride 16. -/
def sincLayer (nn : Nnom) (c : Conv 1 32 129) : Layer (Frame 1) (Frame 32) :=
  convLayer nn c 16 (Nat.succ_pos 15) (Nat.le_add_right 16 113)

/-- A convolution of width 3. -/
def conv3Layer (nn : Nnom) {chIn chOut : ℕ} (c : Conv chIn chOut 3) :
    Layer (Frame chIn) (Frame chOut) :=
  convLayer nn c 1 (by decide) (by decide)

/-- A max-pool over groups of `k`. -/
def poolLayer (nn : Nnom) (k : ℕ) (hk : 0 < k) : Layer (Frame 48) (Frame 48) where
  kernel := k
  stride := k
  stride_pos := hk
  stride_le := le_refl k
  out := nn.maxpool

/-- A max-pool over groups of 4. -/
def pool4Layer (nn : Nnom) : Layer (Frame 48) (Frame 48) := poolLayer nn 4 (by decide)

/-- A max-pool over groups of 2. -/
def pool2Layer (nn : Nnom) : Layer (Frame 48) (Frame 48) := poolLayer nn 2 (by decide)

/-! ## The network -/

/-- Frames in front of the inputs of the layers. -/
structure Kept where
  sinc : List (Frame 1)
  conv1 : List (Frame 32)
  pool1 : List (Frame 48)
  conv2 : List (Frame 48)
  pool2 : List (Frame 48)
  conv3 : List (Frame 48)
  pool3 : List (Frame 48)
  conv4 : List (Frame 48)

/-- The left padding of a causal network: zeros, and nothing in front of a pool. -/
def leftPad : Kept where
  sinc := .replicate 128 zeroFrame
  conv1 := .replicate 2 zeroFrame
  pool1 := []
  conv2 := .replicate 2 zeroFrame
  pool2 := []
  conv3 := .replicate 2 zeroFrame
  pool3 := []
  conv4 := .replicate 2 zeroFrame

namespace Net

variable (nn : Nnom) (w : Weights) (k : Kept) (audio : List (Frame 1))

def sinc : List (Frame 32) := (sincLayer nn w.conv1d).apply (k.sinc ++ audio)

def conv1 : List (Frame 48) := (conv3Layer nn w.conv1d_1).apply (k.conv1 ++ sinc nn w k audio)

def pool1 : List (Frame 48) := (pool4Layer nn).apply (k.pool1 ++ conv1 nn w k audio)

def conv2 : List (Frame 48) := (conv3Layer nn w.conv1d_2).apply (k.conv2 ++ pool1 nn w k audio)

def pool2 : List (Frame 48) := (pool4Layer nn).apply (k.pool2 ++ conv2 nn w k audio)

def conv3 : List (Frame 48) := (conv3Layer nn w.conv1d_3).apply (k.conv3 ++ pool2 nn w k audio)

def pool3 : List (Frame 48) := (pool2Layer nn).apply (k.pool3 ++ conv3 nn w k audio)

def conv4 : List (Frame 48) := (conv3Layer nn w.conv1d_4).apply (k.conv4 ++ pool3 nn w k audio)

end Net

variable (nn : Nnom) (w : Weights)

/-- The frames of all stages, with `k` in front of the layers' inputs. -/
def network (k : Kept) (audio : List (Frame 1)) : Stages where
  sinc := Net.sinc nn w k audio
  conv1 := Net.conv1 nn w k audio
  pool1 := Net.pool1 nn w k audio
  conv2 := Net.conv2 nn w k audio
  pool2 := Net.pool2 nn w k audio
  conv3 := Net.conv3 nn w k audio
  pool3 := Net.pool3 nn w k audio
  conv4 := Net.conv4 nn w k audio

/-- **The batch causal network**, applied once to a whole recording. -/
def batch (audio : List (Frame 1)) : Stages := network nn w leftPad audio

theorem batch_conv4 (audio : List (Frame 1)) :
    (batch nn w audio).conv4 = Net.conv4 nn w leftPad audio := by
  rw [batch, network]

/-- The last 15 frames, or all if there are fewer. -/
def lastGap (frames : List (Frame 48)) : List (Frame 48) := frames.drop (frames.length - nGap)

/-- The scores for a whole recording: the head, applied to the average of the last conv4 frames. -/
def batchScores (audio : List (Frame 1)) : Frame 11 :=
  head nn w (gapAverage (lastGap (batch nn w audio).conv4))

/-! ## Frames of several hops -/

/-- Stage by stage, one behind the other. -/
def Stages.append (a b : Stages) : Stages where
  sinc := a.sinc ++ b.sinc
  conv1 := a.conv1 ++ b.conv1
  pool1 := a.pool1 ++ b.pool1
  conv2 := a.conv2 ++ b.conv2
  pool2 := a.pool2 ++ b.pool2
  conv3 := a.conv3 ++ b.conv3
  pool3 := a.pool3 ++ b.pool3
  conv4 := a.conv4 ++ b.conv4

/-- No frames. -/
def Stages.empty : Stages := ⟨[], [], [], [], [], [], [], []⟩

/-- The frames of all hops, stage by stage. -/
def concat (log : List Stages) : Stages := log.foldl Stages.append Stages.empty

theorem concat_snoc (log : List Stages) (f : Stages) :
    concat (log ++ [f]) = (concat log).append f := by
  unfold concat
  rw [List.foldl_append]
  rfl

/-! ## In two pieces -/

/-- What the layers keep of their inputs. -/
def keep (k : Kept) (audio : List (Frame 1)) : Kept where
  sinc := (sincLayer nn w.conv1d).rest (k.sinc ++ audio)
  conv1 := (conv3Layer nn w.conv1d_1).rest (k.conv1 ++ Net.sinc nn w k audio)
  pool1 := (pool4Layer nn).rest (k.pool1 ++ Net.conv1 nn w k audio)
  conv2 := (conv3Layer nn w.conv1d_2).rest (k.conv2 ++ Net.pool1 nn w k audio)
  pool2 := (pool4Layer nn).rest (k.pool2 ++ Net.conv2 nn w k audio)
  conv3 := (conv3Layer nn w.conv1d_3).rest (k.conv3 ++ Net.pool2 nn w k audio)
  pool3 := (pool2Layer nn).rest (k.pool3 ++ Net.conv3 nn w k audio)
  conv4 := (conv3Layer nn w.conv1d_4).rest (k.conv4 ++ Net.pool3 nn w k audio)

namespace Net

variable (k : Kept) (a b : List (Frame 1))

theorem sinc_append : sinc nn w k (a ++ b) = sinc nn w k a ++ sinc nn w (keep nn w k a) b := by
  unfold sinc
  rw [Layer.apply_kept]
  rfl

theorem conv1_append : conv1 nn w k (a ++ b) = conv1 nn w k a ++ conv1 nn w (keep nn w k a) b := by
  unfold conv1
  rw [sinc_append, Layer.apply_kept]
  rfl

theorem pool1_append : pool1 nn w k (a ++ b) = pool1 nn w k a ++ pool1 nn w (keep nn w k a) b := by
  unfold pool1
  rw [conv1_append, Layer.apply_kept]
  rfl

theorem conv2_append : conv2 nn w k (a ++ b) = conv2 nn w k a ++ conv2 nn w (keep nn w k a) b := by
  unfold conv2
  rw [pool1_append, Layer.apply_kept]
  rfl

theorem pool2_append : pool2 nn w k (a ++ b) = pool2 nn w k a ++ pool2 nn w (keep nn w k a) b := by
  unfold pool2
  rw [conv2_append, Layer.apply_kept]
  rfl

theorem conv3_append : conv3 nn w k (a ++ b) = conv3 nn w k a ++ conv3 nn w (keep nn w k a) b := by
  unfold conv3
  rw [pool2_append, Layer.apply_kept]
  rfl

theorem pool3_append : pool3 nn w k (a ++ b) = pool3 nn w k a ++ pool3 nn w (keep nn w k a) b := by
  unfold pool3
  rw [conv3_append, Layer.apply_kept]
  rfl

theorem conv4_append : conv4 nn w k (a ++ b) = conv4 nn w k a ++ conv4 nn w (keep nn w k a) b := by
  unfold conv4
  rw [pool3_append, Layer.apply_kept]
  rfl

end Net

/-- **A recording in two pieces**: stage by stage, the frames of the first piece, and then those of
the network going on from what its layers have kept. -/
theorem network_append (k : Kept) (a b : List (Frame 1)) :
    network nn w k (a ++ b) = (network nn w k a).append (network nn w (keep nn w k a) b) := by
  unfold network
  rw [Net.sinc_append, Net.conv1_append, Net.pool1_append, Net.conv2_append, Net.pool2_append,
    Net.conv3_append, Net.pool3_append, Net.conv4_append]
  rfl

/-- What is kept, in two pieces. -/
theorem keep_append (k : Kept) (a b : List (Frame 1)) :
    keep nn w k (a ++ b) = keep nn w (keep nn w k a) b := by
  unfold keep
  rw [Net.sinc_append, Net.conv1_append, Net.pool1_append, Net.conv2_append, Net.pool2_append,
    Net.conv3_append, Net.pool3_append]
  simp only [Layer.rest_kept]
  rfl

/-! ## Numbers of frames -/

theorem count_conv3 (n : ℕ) : count 3 1 (2 + n) = n := by
  rcases Nat.eq_zero_or_pos n with h | h
  · rw [h]
    rfl
  · rw [count_of_le (by omega), Nat.div_one]
    omega

theorem count_pool {k : ℕ} (hk : 0 < k) (n : ℕ) : count k k n = n / k := by
  by_cases h : n < k
  · rw [count_of_lt h, Nat.div_eq_of_lt h]
  · obtain ⟨d, rfl⟩ := Nat.exists_eq_add_of_le (not_lt.mp h)
    rw [count_of_le (by omega), Nat.add_sub_cancel_left, Nat.add_div_left _ hk]

theorem count_sinc (h : ℕ) : count 129 16 (128 + hop * h) = 100 * h := by
  simp only [hop]
  rcases Nat.eq_zero_or_pos h with h0 | h0
  · rw [h0]
    rfl
  · rw [count_of_le (by omega)]
    omega

section Lengths

variable {nn}

theorem length_conv3 {chIn chOut : ℕ} (c : Conv chIn chOut 3) {k xs : List (Frame chIn)}
    (hk : k.length = 2) :
    ((conv3Layer nn c).apply (k ++ xs)).length = xs.length ∧
      ((conv3Layer nn c).rest (k ++ xs)).length = 2 := by
  have hc : count (conv3Layer nn c).kernel (conv3Layer nn c).stride (k ++ xs).length = xs.length := by
    rw [List.length_append, hk]
    exact count_conv3 xs.length
  refine ⟨by rw [Layer.length_apply, hc], ?_⟩
  rw [Layer.length_rest, hc, List.length_append, hk]
  show 2 + xs.length - xs.length * 1 = 2
  omega

theorem length_pool {g : ℕ} (hg : 0 < g) (xs : List (Frame 48)) :
    ((poolLayer nn g hg).apply xs).length = xs.length / g ∧
      ((poolLayer nn g hg).rest xs).length = xs.length % g := by
  have hc : count (poolLayer nn g hg).kernel (poolLayer nn g hg).stride xs.length = xs.length / g :=
    count_pool hg xs.length
  refine ⟨by rw [Layer.length_apply, hc], ?_⟩
  rw [Layer.length_rest, hc]
  show xs.length - xs.length / g * g = xs.length % g
  have := Nat.div_add_mod' xs.length g
  omega

theorem length_sinc (c : Conv 1 32 129) {k xs : List (Frame 1)} {h : ℕ} (hk : k.length = 128)
    (hx : xs.length = hop * h) :
    ((sincLayer nn c).apply (k ++ xs)).length = 100 * h ∧
      ((sincLayer nn c).rest (k ++ xs)).length = 128 := by
  have hc : count (sincLayer nn c).kernel (sincLayer nn c).stride (k ++ xs).length = 100 * h := by
    rw [List.length_append, hk, hx]
    exact count_sinc h
  refine ⟨by rw [Layer.length_apply, hc], ?_⟩
  rw [Layer.length_rest, hc, List.length_append, hk, hx]
  show 128 + 1600 * h - 100 * h * 16 = 128
  omega

end Lengths

/-- The sizes of the engine's contexts, and of its partial pools. -/
structure Kept.Sized (k : Kept) : Prop where
  sinc : k.sinc.length = 128
  conv1 : k.conv1.length = 2
  pool1 : k.pool1.length = 0
  conv2 : k.conv2.length = 2
  pool2 : k.pool2.length < 4
  conv3 : k.conv3.length = 2
  pool3 : k.pool3.length < 2
  conv4 : k.conv4.length = 2

theorem leftPad_sized : leftPad.Sized := by
  constructor <;> simp [leftPad]

/-- **The number of frames of every stage** for `h` hops. -/
structure Stages.Sized (f : Stages) (k : Kept) (h : ℕ) : Prop where
  sinc : f.sinc.length = 100 * h
  conv1 : f.conv1.length = 100 * h
  pool1 : f.pool1.length = 25 * h
  conv2 : f.conv2.length = 25 * h
  pool2 : f.pool2.length = (k.pool2.length + 25 * h) / 4
  conv3 : f.conv3.length = (k.pool2.length + 25 * h) / 4
  pool3 : f.pool3.length = (k.pool3.length + (k.pool2.length + 25 * h) / 4) / 2
  conv4 : f.conv4.length = (k.pool3.length + (k.pool2.length + 25 * h) / 4) / 2

theorem network_sized {k : Kept} (hk : k.Sized) {audio : List (Frame 1)} {h : ℕ}
    (ha : audio.length = hop * h) : (network nn w k audio).Sized k h := by
  have hsinc : (Net.sinc nn w k audio).length = 100 * h := (length_sinc _ hk.sinc ha).1
  have hconv1 : (Net.conv1 nn w k audio).length = 100 * h := (length_conv3 _ hk.conv1).1.trans hsinc
  have hpool1 : (Net.pool1 nn w k audio).length = 25 * h := by
    refine (length_pool (by decide) _).1.trans ?_
    rw [List.length_append, hk.pool1, hconv1]
    omega
  have hconv2 : (Net.conv2 nn w k audio).length = 25 * h := (length_conv3 _ hk.conv2).1.trans hpool1
  have hpool2 : (Net.pool2 nn w k audio).length = (k.pool2.length + 25 * h) / 4 := by
    refine (length_pool (by decide) _).1.trans ?_
    rw [List.length_append, hconv2]
  have hconv3 : (Net.conv3 nn w k audio).length = (k.pool2.length + 25 * h) / 4 :=
    (length_conv3 _ hk.conv3).1.trans hpool2
  have hpool3 : (Net.pool3 nn w k audio).length =
      (k.pool3.length + (k.pool2.length + 25 * h) / 4) / 2 := by
    refine (length_pool (by decide) _).1.trans ?_
    rw [List.length_append, hconv3]
  exact ⟨hsinc, hconv1, hpool1, hconv2, hpool2, hconv3, hpool3,
    (length_conv3 _ hk.conv4).1.trans hpool3⟩

/-- The sizes of what is kept do not change over whole hops. -/
theorem keep_sized {k : Kept} (hk : k.Sized) {audio : List (Frame 1)} {h : ℕ}
    (ha : audio.length = hop * h) : (keep nn w k audio).Sized := by
  have hn := network_sized nn w hk ha
  refine ⟨(length_sinc _ hk.sinc ha).2, (length_conv3 _ hk.conv1).2, ?_, (length_conv3 _ hk.conv2).2, ?_,
    (length_conv3 _ hk.conv3).2, ?_, (length_conv3 _ hk.conv4).2⟩
  · refine (length_pool (by decide) _).2.trans ?_
    have hconv1 : (Net.conv1 nn w k audio).length = 100 * h := hn.conv1
    rw [List.length_append, hk.pool1, hconv1]
    omega
  · exact (length_pool (by decide) _).2.trans_lt (Nat.mod_lt _ (by decide))
  · exact (length_pool (by decide) _).2.trans_lt (Nat.mod_lt _ (by decide))

/-! ## Before the first hop -/

/-- Nothing is heard, nothing is produced. -/
theorem network_nil : network nn w leftPad [] = Stages.empty := by
  have h0 : ([] : List (Frame 1)).length = hop * 0 := rfl
  have h := network_sized nn w leftPad_sized h0
  have hnil : ∀ {ch : ℕ} (xs : List (Frame ch)), xs.length = 0 → xs = [] :=
    fun xs => List.eq_nil_of_length_eq_zero
  exact Stages.ext (hnil _ h.sinc) (hnil _ h.conv1) (hnil _ h.pool1) (hnil _ h.conv2) (hnil _ h.pool2)
    (hnil _ h.conv3) (hnil _ h.pool3) (hnil _ h.conv4)

/-- The padding is kept. -/
theorem keep_nil : keep nn w leftPad [] = leftPad := by
  have hnet := network_nil nn w
  simp only [network, Stages.empty, Stages.mk.injEq] at hnet
  obtain ⟨hsinc, hconv1, hpool1, hconv2, hpool2, hconv3, hpool3, -⟩ := hnet
  have hrest : ∀ {ch : ℕ} {β : Type} (l : Layer (Frame ch) β) (xs : List (Frame ch)),
      xs.length < l.kernel → l.rest (xs ++ []) = xs := by
    intro ch β l xs hlt
    rw [List.append_nil, Layer.rest_of_lt l hlt]
  have hsinc' := hrest (sincLayer nn w.conv1d) leftPad.sinc 
    (leftPad_sized.sinc.trans_lt (by decide : 128 < 129))
  have hconv : ∀ {chIn chOut : ℕ} (c : Conv chIn chOut 3) (xs : List (Frame chIn)), xs.length = 2 →
      (conv3Layer nn c).rest (xs ++ []) = xs :=
    fun c xs h => hrest _ _ (h.trans_lt (by decide : 2 < 3))
  unfold keep
  rw [hsinc, hconv1, hpool1, hconv2, hpool2, hconv3, hpool3, hsinc', hconv _ _ leftPad_sized.conv1,
    hconv _ _ leftPad_sized.conv2, hconv _ _ leftPad_sized.conv3, hconv _ _ leftPad_sized.conv4,
    hrest (pool4Layer nn) leftPad.pool1 (by decide : 0 < 4),
    hrest (pool4Layer nn) leftPad.pool2 (by decide : 0 < 4),
    hrest (pool2Layer nn) leftPad.pool3 (by decide : 0 < 2)]

end KwsSoc.Stream
