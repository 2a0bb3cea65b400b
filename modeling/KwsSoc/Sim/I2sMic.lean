import KwsSoc.Xip.PlayOrder

/-! # The microphone of the test benches

`I2SMicSim` (`sim/i2s_mic_sim.cpp`) puts the words of an audio file on `i2s_sd`: at a falling edge
of SCK it begins a word if WS has changed since the last one, and moves on by a bit if not; a left
slot takes the next word, and the right slot repeats it. With `XIP_PLAYBACK` the sample player takes
its place. **`sameBits_iff`**: in a left slot the player shows the bits of the microphone, two
cycles after it, exactly when the sample it has read last is the word of that frame. -/

namespace KwsSoc.Sim

open SyncMachine SamplePlayer

/-! ## The model of the microphone -/

/-- The members of `I2SMicSim` that `step` changes. -/
structure I2SMicSim where
  currentWordIdx : ℕ
  bitIdx : ℕ
  lastSck : Bool
  wsDelayed : Bool
  currentWord : BitVec 32
  sdOut : Bool

namespace I2SMicSim

variable (audioData : List (BitVec 32)) (defaultVal : BitVec 32)

/-- The constructor. -/
def new : I2SMicSim where
  currentWordIdx := 0
  bitIdx := 0
  lastSck := true
  wsDelayed := false
  currentWord := defaultVal
  sdOut := false

/-- The next word of the file, `defaultVal` behind its end. -/
def fetch (s : I2SMicSim) : I2SMicSim :=
  match audioData[s.currentWordIdx]? with
  | some w => { s with currentWord := w, currentWordIdx := s.currentWordIdx + 1 }
  | none => { s with currentWord := defaultVal }

/-- The word and the bit at a falling edge of SCK. -/
def shift (s : I2SMicSim) (ws : Bool) : I2SMicSim :=
  if ws ≠ s.wsDelayed then
    { (if ws then s else s.fetch audioData defaultVal) with bitIdx := 31 }
  else if s.bitIdx > 0 then { s with bitIdx := s.bitIdx - 1 }
  else s

/-- `step`, once in every cycle. -/
def step (s : I2SMicSim) (sck ws : Bool) : I2SMicSim :=
  if !sck && s.lastSck then
    let s' := s.shift audioData defaultVal ws
    { s' with lastSck := sck, wsDelayed := ws, sdOut := s'.currentWord.getLsbD s'.bitIdx }
  else { s with lastSck := sck }

/-- The microphone after `n` cycles of a bench; it reads the SCK and WS that the player reads. -/
def run (x : ℕ → Inputs) (n : ℕ) : I2SMicSim :=
  trace (fun s y => step audioData defaultVal s y.sckRef y.wsRef) (new defaultVal) x n

/-- The word of frame `k`. -/
def word (k : ℕ) : BitVec 32 := audioData[k]?.getD defaultVal

end I2SMicSim

/-! ## Frames -/

section Frames

variable (x : ℕ → Inputs)

/-- WS falls in cycle `n`. -/
def wsFalls (n : ℕ) : Bool := SamplePlayer.wsPrev x n && !(x n).wsRef

/-- How many frames have begun before cycle `n`. -/
def frameCount (n : ℕ) : ℕ := Nat.count (fun k => wsFalls x k = true) n

/-- The receiver changes WS at falling edges of SCK only. -/
def WsOnSck : Prop := ∀ n, (x n).wsRef ≠ SamplePlayer.wsPrev x n → sckFalls x n = true

/-- A left slot from cycle `t` to cycle `t + e`, with room for 32 bits. -/
structure LeftSlot (t e : ℕ) : Prop where
  begins : wsFalls x t = true
  low : ∀ c, t < c → c ≤ t + e → (x c).wsRef = false
  bits : 31 ≤ falls x (t + 1) e

variable {x} {t e : ℕ}

theorem frameCount_succ (x : ℕ → Inputs) (n : ℕ) :
    frameCount x (n + 1) = frameCount x n + if wsFalls x n = true then 1 else 0 :=
  Nat.count_succ _ n

/-- WS is low throughout the slot. -/
theorem LeftSlot.wsRef (h : LeftSlot x t e) {c : ℕ} (htc : t ≤ c) (hce : c ≤ t + e) :
    (x c).wsRef = false := by
  rcases Nat.eq_or_lt_of_le htc with rfl | hlt
  · have hb := h.begins
    rw [wsFalls, Bool.and_eq_true, Bool.not_eq_true'] at hb
    exact hb.2
  · exact h.low c hlt hce

theorem LeftSlot.wsPrev (h : LeftSlot x t e) {d : ℕ} (hd : d ≤ e) :
    SamplePlayer.wsPrev x (t + 1 + d) = false := by
  rw [show t + 1 + d = t + d + 1 by omega]
  exact h.wsRef (by omega) (by omega)

/-- The falling edges come one by one. -/
theorem exists_falls (a : ℕ) {f d : ℕ} (h : f ≤ falls x a d) : ∃ k ≤ d, falls x a k = f := by
  induction d with
  | zero => exact ⟨0, le_rfl, (Nat.le_zero.mp h).symm⟩
  | succ d ih =>
    rcases Nat.lt_or_ge (falls x a d) f with hlt | hge
    · refine ⟨d + 1, le_rfl, ?_⟩
      have hs := falls_succ x a d
      split at hs <;> omega
    · obtain ⟨k, hk, hf⟩ := ih hge
      exact ⟨k, by omega, hf⟩

end Frames

/-! ## The run of the microphone -/

namespace I2SMicSim

variable {audioData : List (BitVec 32)} {defaultVal : BitVec 32} {x : ℕ → Inputs}

variable (audioData defaultVal x) in
/-- The microphone in cycle `n` against the inputs so far. -/
structure RunInv (m : I2SMicSim) (n : ℕ) : Prop where
  lastSck : 0 < n → m.lastSck = SamplePlayer.sckPrev x n
  wsDelayed : m.wsDelayed = SamplePlayer.wsPrev x n
  currentWordIdx : m.currentWordIdx = min (frameCount x n) audioData.length
  currentWord : 0 < frameCount x n → m.currentWord = word audioData defaultVal (frameCount x n - 1)

theorem new_inv : RunInv audioData defaultVal x (new defaultVal) 0 where
  lastSck h := absurd h (Nat.lt_irrefl 0)
  wsDelayed := rfl
  currentWordIdx := by simp [new, frameCount]
  currentWord h := by simp [frameCount] at h

/-- A left slot begins: the word of the frame, and the place of the one after it. -/
theorem RunInv.fetch {m : I2SMicSim} {n : ℕ} (h : RunInv audioData defaultVal x m n) :
    (m.fetch audioData defaultVal).currentWord = word audioData defaultVal (frameCount x n) ∧
      (m.fetch audioData defaultVal).currentWordIdx =
        min (frameCount x n + 1) audioData.length := by
  have hidx := h.currentWordIdx
  rw [I2SMicSim.fetch]
  rcases Nat.lt_or_ge (frameCount x n) audioData.length with hlt | hge
  · rw [Nat.min_eq_left (Nat.le_of_lt hlt)] at hidx
    rw [hidx, List.getElem?_eq_getElem hlt, word, List.getElem?_eq_getElem hlt]
    exact ⟨rfl, (Nat.min_eq_left hlt).symm⟩
  · -- behind the end the place stays
    rw [Nat.min_eq_right hge] at hidx
    rw [hidx, List.getElem?_eq_none le_rfl, word, List.getElem?_eq_none hge]
    exact ⟨rfl, by rw [Nat.min_eq_right (Nat.le_succ_of_le hge)]⟩

variable (audioData defaultVal) in
/-- What `shift` does where WS has not changed. -/
theorem shift_of_eq (m : I2SMicSim) {ws : Bool} (h : ws = m.wsDelayed) :
    m.shift audioData defaultVal ws = { m with bitIdx := m.bitIdx - 1 } := by
  rw [shift, if_neg (not_not_intro h)]
  split
  · rfl
  · next h0 =>
    rw [show m.bitIdx - 1 = m.bitIdx by omega]

/-- A falling edge of SCK. -/
theorem step_of_falls (m : I2SMicSim) {sck ws : Bool} (h : (!sck && m.lastSck) = true) :
    step audioData defaultVal m sck ws =
      { m.shift audioData defaultVal ws with
        lastSck := sck
        wsDelayed := ws
        sdOut := (m.shift audioData defaultVal ws).currentWord.getLsbD
          (m.shift audioData defaultVal ws).bitIdx } := by
  rw [step, if_pos h]

theorem step_of_not_falls (m : I2SMicSim) {sck ws : Bool} (h : (!sck && m.lastSck) = false) :
    step audioData defaultVal m sck ws = { m with lastSck := sck } := by
  rw [step, h, if_neg Bool.false_ne_true]

/-- The microphone sees the falling edges that the player sees. -/
theorem RunInv.falls {m : I2SMicSim} {n : ℕ} (h : RunInv audioData defaultVal x m n)
    (hn : sckFalls x n = true) : (!(x n).sckRef && m.lastSck) = true := by
  have hpos : 0 < n := by
    rcases Nat.eq_zero_or_pos n with rfl | hpos
    · cases hn
    · exact hpos
  rw [h.lastSck hpos, Bool.and_comm]
  exact hn

/-- Without a falling edge of WS the word and its place stay. -/
theorem RunInv.keep {m m' : I2SMicSim} {n : ℕ} (h : RunInv audioData defaultVal x m n)
    (hw : wsFalls x n = false) (hsck : m'.lastSck = (x n).sckRef) (hws : m'.wsDelayed = (x n).wsRef)
    (hidx : m'.currentWordIdx = m.currentWordIdx) (hword : m'.currentWord = m.currentWord) :
    RunInv audioData defaultVal x m' (n + 1) := by
  have hcount : frameCount x (n + 1) = frameCount x n := by
    rw [frameCount_succ, hw, if_neg Bool.false_ne_true, Nat.add_zero]
  refine ⟨fun _ => hsck, hws, ?_, ?_⟩
  · rw [hcount, hidx]
    exact h.currentWordIdx
  · rw [hcount, hword]
    exact h.currentWord

/-- **Step lemma.** -/
theorem RunInv.step (hws : WsOnSck x) {m : I2SMicSim} {n : ℕ}
    (h : RunInv audioData defaultVal x m n) :
    RunInv audioData defaultVal x
      (I2SMicSim.step audioData defaultVal m (x n).sckRef (x n).wsRef) (n + 1) := by
  by_cases heq : (x n).wsRef = SamplePlayer.wsPrev x n
  · have hw : wsFalls x n = false := by rw [wsFalls, heq, Bool.and_not_self]
    cases hf : !(x n).sckRef && m.lastSck with
    | true =>
      rw [step_of_falls m hf, shift_of_eq audioData defaultVal m (heq.trans h.wsDelayed.symm)]
      exact h.keep hw rfl rfl rfl rfl
    | false =>
      rw [step_of_not_falls m hf]
      exact h.keep hw rfl (h.wsDelayed.trans heq.symm) rfl rfl
  · have hf := h.falls (hws n heq)
    have hne : (x n).wsRef ≠ m.wsDelayed := by
      rw [h.wsDelayed]
      exact heq
    rw [step_of_falls m hf, shift, if_pos hne]
    cases hw : (x n).wsRef with
    | true =>
      -- the right slot repeats the word
      have hnot : wsFalls x n = false := by rw [wsFalls, hw, Bool.not_true, Bool.and_false]
      exact h.keep hnot rfl hw.symm rfl rfl
    | false =>
      have hcount : frameCount x (n + 1) = frameCount x n + 1 := by
        have hprev : SamplePlayer.wsPrev x n = true := by
          rw [hw] at heq
          exact (Bool.not_eq_false _).mp (Ne.symm heq)
        rw [frameCount_succ, wsFalls, hw, hprev]
        rfl
      refine ⟨fun _ => rfl, hw.symm, ?_, fun _ => ?_⟩
      · rw [hcount]
        exact h.fetch.2
      · rw [hcount]
        exact h.fetch.1

/-- **The run of the microphone.** -/
theorem run_inv (hws : WsOnSck x) (n : ℕ) :
    RunInv audioData defaultVal x (run audioData defaultVal x n) n := by
  induction n with
  | zero => exact new_inv
  | succ n ih => exact ih.step hws

/-! ## A left slot -/

variable {t e : ℕ}

/-- The microphone puts out bit `31 - f` of a word. -/
structure AtBit (m : I2SMicSim) (w : BitVec 32) (f : ℕ) : Prop where
  currentWord : m.currentWord = w
  bitIdx : m.bitIdx = 31 - f
  sdOut : m.sdOut = w.getLsbD (31 - f)

/-- The falling edge of WS. -/
theorem atBit_begins (hws : WsOnSck x) (h : LeftSlot x t e) :
    AtBit (run audioData defaultVal x (t + 1)) (word audioData defaultVal (frameCount x t)) 0 := by
  have hinv : RunInv audioData defaultVal x (run audioData defaultVal x t) t := run_inv hws t
  have hlow := h.wsRef le_rfl (Nat.le_add_right t e)
  have hprev : SamplePlayer.wsPrev x t = true := by
    have hb := h.begins
    rw [wsFalls, Bool.and_eq_true] at hb
    exact hb.1
  have hf := hinv.falls (hws t (by rw [hlow, hprev]; decide))
  have hne : (x t).wsRef ≠ (run audioData defaultVal x t).wsDelayed := by
    rw [hinv.wsDelayed, hlow, hprev]
    decide
  show AtBit (I2SMicSim.step audioData defaultVal (run audioData defaultVal x t) (x t).sckRef
    (x t).wsRef) _ _
  rw [step_of_falls _ hf, shift, if_pos hne, hlow]
  have hword := hinv.fetch.1
  exact ⟨hword, rfl, congrArg (BitVec.getLsbD · 31) hword⟩

/-- **The word in its slot**: each falling edge of SCK moves on by a bit, and the last bit stays. -/
theorem atBit_run (hws : WsOnSck x) (h : LeftSlot x t e) {d : ℕ} (hd : d ≤ e) :
    AtBit (run audioData defaultVal x (t + 1 + d))
      (word audioData defaultVal (frameCount x t)) (SamplePlayer.falls x (t + 1) d) := by
  induction d with
  | zero => exact atBit_begins hws h
  | succ d ih =>
    have ih := ih (by omega)
    have hinv : RunInv audioData defaultVal x (run audioData defaultVal x (t + 1 + d))
        (t + 1 + d) := run_inv hws (t + 1 + d)
    have heq : (x (t + 1 + d)).wsRef = (run audioData defaultVal x (t + 1 + d)).wsDelayed := by
      rw [hinv.wsDelayed, h.wsPrev (by omega), h.wsRef (by omega) (by omega)]
    have hcur := ih.currentWord
    have hidx := ih.bitIdx
    show AtBit (I2SMicSim.step audioData defaultVal (run audioData defaultVal x (t + 1 + d))
      (x (t + 1 + d)).sckRef (x (t + 1 + d)).wsRef) _ _
    rw [falls_succ]
    cases hf : sckFalls x (t + 1 + d) with
    | true =>
      rw [if_pos rfl, step_of_falls _ (hinv.falls hf), shift_of_eq audioData defaultVal _ heq,
        hidx, hcur, Nat.sub_sub]
      exact ⟨rfl, rfl, rfl⟩
    | false =>
      have hnot : (!(x (t + 1 + d)).sckRef && (run audioData defaultVal x (t + 1 + d)).lastSck) =
          false := by
        rw [hinv.lastSck (by omega), Bool.and_comm]
        exact hf
      rw [step_of_not_falls _ hnot, if_neg Bool.false_ne_true, Nat.add_zero]
      exact ⟨hcur, hidx, ih.sdOut⟩

end I2SMicSim

/-! ## The player in its place -/

section Player

variable {nSamples : ℕ} {base : BitVec 32} {mem : BitVec 32 → BitVec 32} {x : ℕ → Inputs}
  {t e : ℕ}

/-- **The player in a left slot.** -/
theorem player_sdOut (hN : 2 ≤ nSamples) (h : LeftSlot x t e) (hread : 0 < reads x t) {d : ℕ}
    (hd : d ≤ e) :
    (Sys.run base mem x (t + d + 2) : Sys nSamples).player.sdOut =
      bit31First (sample base mem ((reads x t - 1) % nSamples)) (falls x (t + 1) d) := by
  have hload : loadAt x t = true := by
    rw [loadAt, Bool.and_eq_true, decide_eq_true_eq]
    exact ⟨h.begins, hread⟩
  have hnone (c : ℕ) (htc : t < c) (hcd : c ≤ t + d) : loadAt x c = false := by
    obtain ⟨k, rfl⟩ := Nat.exists_eq_add_of_lt htc
    rw [loadAt, show t + k + 1 = t + 1 + k by omega, h.wsPrev (by omega), Bool.false_and,
      Bool.false_and]
  rw [shiftedOut hN base mem x t d, run_load hN base mem hload]
  · rw [run_loads hN]
    exact hload
  · intro c htc hcd
    rw [run_loads hN]
    exact hnone c htc hcd

variable (nSamples base mem x t e) in
/-- In the left slot the player shows the bits of the microphone, two cycles after it. -/
def SameBits (audioData : List (BitVec 32)) (defaultVal : BitVec 32) : Prop :=
  ∀ d ≤ e, falls x (t + 1) d < 32 →
    (Sys.run base mem x (t + d + 2) : Sys nSamples).player.sdOut =
      (I2SMicSim.run audioData defaultVal x (t + 1 + d)).sdOut

/-- **The player in the place of the microphone**: the bits of a frame are the same exactly when the
sample that the player has read last is the word of the frame. -/
theorem sameBits_iff (hN : 2 ≤ nSamples) (base : BitVec 32) (mem : BitVec 32 → BitVec 32)
    (audioData : List (BitVec 32)) (defaultVal : BitVec 32) (hws : WsOnSck x)
    (h : LeftSlot x t e) (hread : 0 < reads x t) :
    SameBits nSamples base mem x t e audioData defaultVal ↔
      sample base mem ((reads x t - 1) % nSamples) =
        I2SMicSim.word audioData defaultVal (frameCount x t) := by
  constructor
  · intro hsame
    refine BitVec.eq_of_getLsbD_eq fun i hi => ?_
    -- bit `i` is on the line after `31 - i` falling edges
    obtain ⟨d, hd, hf⟩ := exists_falls (x := x) (t + 1) (show 31 - i ≤ falls x (t + 1) e from
      (Nat.sub_le 31 i).trans h.bits)
    have hbit := hsame d hd (by omega)
    rw [player_sdOut hN h hread hd, (I2SMicSim.atBit_run hws h hd).sdOut, hf, bit31First,
      if_pos (by omega), show 31 - (31 - i) = i by omega] at hbit
    exact hbit
  · intro hword d hd hlt
    rw [player_sdOut hN h hread hd, (I2SMicSim.atBit_run hws h hd).sdOut, bit31First, if_pos hlt,
      hword]

end Player

theorem wsOnSck_frames : WsOnSck frames := by
  intro n hn
  cases n with
  | zero => exact absurd rfl hn
  | succ n =>
    have hne : decide (64 ≤ (n + 1) % 128) ≠ decide (64 ≤ n % 128) := hn
    rw [Ne, decide_eq_decide] at hne
    show (decide (n % 2 = 1) && !decide ((n + 1) % 2 = 1)) = true
    rw [Bool.and_eq_true, Bool.not_eq_true', decide_eq_true_eq, decide_eq_false_iff_not]
    omega

theorem leftSlot_frames : LeftSlot frames 128 62 where
  begins := by decide
  low c htc hce := by
    rw [frames, decide_eq_false_iff_not]
    omega
  bits := by decide +kernel

/-- The first of 63 samples; 64 reads end before it. -/
theorem sameBits_frames :
    SameBits 63 0x80010000#32 id frames 128 62
      ((List.range 63).map (sample 0x80010000#32 id)) 0 := by
  have hread : reads frames 128 = 64 := reads_frames 128
  have hcount : frameCount frames 128 = 0 := by decide +kernel
  refine (sameBits_iff (by decide) 0x80010000#32 id _ 0 wsOnSck_frames leftSlot_frames
    (by rw [hread]; decide)).mpr ?_
  rw [hread, hcount]
  rfl

end KwsSoc.Sim
