import KwsSoc.Lib.RoundAway

/-! # Peak normalisation

`peak_norm_clip` of `kws_bare_main.c` scales a clip so that its largest magnitude becomes 96, with
a factor of 64 at most. **`normalises_peakNormClip`**: every sample becomes the integer nearest to
`s * 96 / peak`, ties away from zero, and the saturation never acts. -/

namespace KwsSoc.Firmware

open RoundAway

/-- The magnitude of a sample, 128 for the smallest one. -/
def magnitude (s : BitVec 8) : ℤ := if s.toInt < 0 then -s.toInt else s.toInt

/-- The first loop of `peak_norm_clip`. -/
def peakOf (buf : List (BitVec 8)) : ℤ :=
  buf.foldl (fun peak s => if magnitude s > peak then magnitude s else peak) 0

/-- `scaled`, as it is before it is clamped. -/
def scaled (peak s : ℤ) : ℤ :=
  if peak = 1 then s * 64
  else
    let half := peak >>> (1 : ℕ)
    if s ≥ 0 then (s * 96 + half).tdiv peak else (s * 96 - half).tdiv peak

/-- The clamps of the second loop. -/
def clampSample (v : ℤ) : ℤ :=
  let v := if v > 127 then 127 else v
  if v < -128 then -128 else v

/-- `peak_norm_clip`, on the `n` bytes at `buf`. -/
def peakNormClip (buf : List (BitVec 8)) : List (BitVec 8) :=
  let peak := peakOf buf
  if peak < 1 then buf
  else buf.map fun s => .ofInt 8 (clampSample (scaled peak s.toInt))

/-! ## The peak -/

theorem magnitude_eq_abs (s : BitVec 8) : magnitude s = |s.toInt| := by
  rw [magnitude]
  split
  · next hneg => rw [abs_of_neg hneg]
  · next hpos => rw [abs_of_nonneg (not_lt.mp hpos)]

/-- A maximum over a list, by a fold from any start. -/
theorem foldl_peak (buf : List (BitVec 8)) (m : ℤ) :
    let p := buf.foldl (fun peak s => if magnitude s > peak then magnitude s else peak) m
    m ≤ p ∧ (∀ s ∈ buf, |s.toInt| ≤ p) ∧ (p = m ∨ ∃ s ∈ buf, |s.toInt| = p) := by
  induction buf generalizing m with
  | nil => exact ⟨le_rfl, fun s hs => absurd hs List.not_mem_nil, .inl rfl⟩
  | cons s buf ih =>
    intro p
    obtain ⟨hm, hall, hex⟩ := ih (if magnitude s > m then magnitude s else m)
    have hs : magnitude s ≤ p ∧ m ≤ p := by
      change _ ≤ p at hm
      split at hm <;> omega
    rw [magnitude_eq_abs] at hs
    refine ⟨hs.2, List.forall_mem_cons.mpr ⟨hs.1, hall⟩, ?_⟩
    rcases hex with heq | ⟨t, ht, heq⟩
    · -- the maximum is the one before the rest, which may be `s`
      replace heq : p = if magnitude s > m then magnitude s else m := heq
      by_cases hgt : magnitude s > m
      · rw [if_pos hgt, magnitude_eq_abs] at heq
        exact .inr ⟨s, List.mem_cons_self, heq.symm⟩
      · rw [if_neg hgt] at heq
        exact .inl heq
    · exact .inr ⟨t, List.mem_cons_of_mem _ ht, heq⟩

/-- The magnitudes of a buffer. -/
def magnitudes (buf : List (BitVec 8)) : Set ℤ := {m | ∃ s ∈ buf, m = |s.toInt|}

theorem mem_magnitudes {buf : List (BitVec 8)} {m : ℤ} :
    m ∈ magnitudes buf ↔ ∃ v ∈ buf.map BitVec.toInt, m = |v| := by
  simp [magnitudes]

/-- **The peak** is the largest magnitude, 0 for an empty buffer. -/
theorem peakOf_eq {buf : List (BitVec 8)} {peak : ℤ} (hpeak : IsGreatest (magnitudes buf) peak) :
    peakOf buf = peak := by
  obtain ⟨hpos, hall, hex⟩ := foldl_peak buf 0
  obtain ⟨⟨s, hs, rfl⟩, hub⟩ := hpeak
  refine le_antisymm ?_ (hall s hs)
  rcases hex with heq | ⟨t, ht, heq⟩
  · exact heq.le.trans (abs_nonneg _)
  · exact heq.ge.trans (hub ⟨t, ht, rfl⟩)

/-! ## The scaling -/

/-- With a peak above 1, a sample is rounded. -/
theorem scaled_eq_roundDiv {peak : ℤ} (hne : peak ≠ 1) (s : ℤ) :
    scaled peak s = roundDiv (s * 96) peak := by
  have hhalf : peak >>> (1 : ℕ) = peak / 2 := Int.shiftRight_eq_div_pow peak 1
  have hsign : s ≥ 0 ↔ 0 ≤ s * 96 := by omega
  simp only [scaled, if_neg hne, roundDiv, hhalf, hsign]

theorem isRoundAway_scaled {peak : ℤ} (hpos : 0 < peak) (hne : peak ≠ 1) (s : ℤ) :
    IsRoundAway ((s * 96 : ℤ) / peak) (scaled peak s) := by
  rw [scaled_eq_roundDiv hne]
  exact isRoundAway_roundDiv (s * 96) hpos

theorem scaled_neg {peak : ℤ} (hpos : 0 < peak) (s : ℤ) : scaled peak (-s) = -scaled peak s := by
  by_cases hone : peak = 1
  · simp only [scaled, if_pos hone]
    ring
  · rw [scaled_eq_roundDiv hone, scaled_eq_roundDiv hone, neg_mul, roundDiv_neg hpos]

theorem scaled_monotone {peak : ℤ} (hpos : 0 < peak) : Monotone (scaled peak) := by
  intro s t hst
  by_cases hone : peak = 1
  · simp only [scaled, if_pos hone]
    omega
  · refine (isRoundAway_scaled hpos hone s).mono (isRoundAway_scaled hpos hone t) ?_
    have hposq : (0 : ℚ) < peak := by exact_mod_cast hpos
    have hst' : ((s * 96 : ℤ) : ℚ) ≤ (t * 96 : ℤ) := by exact_mod_cast (by omega : s * 96 ≤ t * 96)
    exact div_le_div_of_nonneg_right hst' hposq.le

/-- The magnitude of a result is the result for the magnitude. -/
theorem abs_scaled {peak : ℤ} (hpos : 0 < peak) (s : ℤ) : |scaled peak s| = scaled peak |s| := by
  have hzero : scaled peak 0 = 0 := by
    have hneg := scaled_neg hpos 0
    rw [neg_zero] at hneg
    omega
  rcases le_total 0 s with hs | hs
  · rw [abs_of_nonneg hs, abs_of_nonneg (hzero.ge.trans (scaled_monotone hpos hs))]
  · rw [abs_of_nonpos hs, scaled_neg hpos,
      abs_of_nonpos ((scaled_monotone hpos hs).trans hzero.le)]

/-- What the peak itself becomes. -/
def target (peak : ℤ) : ℤ := if peak = 1 then 64 else 96

theorem scaled_peak {peak : ℤ} (hpos : 0 < peak) : scaled peak peak = target peak := by
  by_cases hone : peak = 1
  · simp only [scaled, target, if_pos hone]
    omega
  · have hround := isRoundAway_scaled hpos hone peak
    have hposq : (peak : ℚ) ≠ 0 := by exact_mod_cast hpos.ne'
    have hq : ((peak * 96 : ℤ) : ℚ) / peak = (96 : ℤ) := by
      push_cast
      field_simp
    rw [hq] at hround
    rw [target, if_neg hone]
    exact hround.unique (isRoundAway_intCast 96)

/-- No magnitude exceeds what the peak becomes. -/
theorem abs_scaled_le {peak s : ℤ} (hpos : 0 < peak) (hs : |s| ≤ peak) :
    |scaled peak s| ≤ target peak := by
  obtain ⟨hlo, hhi⟩ := abs_le.mp hs
  have hup := scaled_monotone hpos hhi
  have hdown := scaled_monotone hpos hlo
  rw [scaled_neg hpos] at hdown
  rw [scaled_peak hpos] at hup hdown
  exact abs_le.mpr ⟨hdown, hup⟩

theorem target_le (peak : ℤ) : target peak ≤ 96 := by
  rw [target]
  split <;> omega

/-- A sample that keeps within 127 is stored as it is. -/
theorem toInt_clampSample {v : ℤ} (hv : |v| ≤ 96) :
    (BitVec.ofInt 8 (clampSample v)).toInt = v := by
  obtain ⟨hlo, hhi⟩ := abs_le.mp hv
  have hclamp : clampSample v = v := by
    simp only [clampSample, if_neg (by omega : ¬ v > 127), if_neg (by omega : ¬ v < -128)]
  rw [hclamp, BitVec.toInt_ofInt]
  exact Int.bmod_eq_of_le (by omega) (by omega)

/-! ## The clip -/

theorem peakNormClip_of_zero {buf : List (BitVec 8)} (hzero : ∀ s ∈ buf, s = 0#8) :
    peakNormClip buf = buf := by
  have hlt : peakOf buf < 1 := by
    obtain ⟨-, -, heq | ⟨s, hs, heq⟩⟩ := foldl_peak buf 0
    · exact lt_of_eq_of_lt heq one_pos
    · rw [hzero s hs] at heq
      exact lt_of_eq_of_lt heq.symm one_pos
  exact if_pos hlt

/-- No sample is clamped. -/
theorem map_peakNormClip {buf : List (BitVec 8)} {peak : ℤ}
    (hpeak : IsGreatest (magnitudes buf) peak) (hpos : 0 < peak) :
    (peakNormClip buf).map BitVec.toInt = buf.map fun s => scaled peak s.toInt := by
  have hout : peakNormClip buf =
      buf.map fun s => BitVec.ofInt 8 (clampSample (scaled peak s.toInt)) := by
    rw [peakNormClip, peakOf_eq hpeak, if_neg (by omega)]
  rw [hout, List.map_map]
  exact List.map_congr_left fun s hs =>
    toInt_clampSample ((abs_scaled_le hpos (hpeak.2 ⟨s, hs, rfl⟩)).trans (target_le peak))

/-- **A normalised clip**: the map `f` on all its samples. -/
structure Normalises (buf out : List (BitVec 8)) (peak : ℤ) (f : ℤ → ℤ) : Prop where
  eq_map : out.map BitVec.toInt = buf.map fun s => f s.toInt
  unit : peak = 1 → ∀ s, f s = s * 64
  nearest : peak ≠ 1 → ∀ s : ℤ, IsRoundAway ((s * 96 : ℤ) / peak) (f s)
  odd : ∀ s, f (-s) = -f s
  monotone : Monotone f
  unsaturated : ∀ s ∈ buf, -128 < f s.toInt ∧ f s.toInt < 127
  largest : IsGreatest (magnitudes out) (if peak = 1 then 64 else 96)

/-- **`peak_norm_clip`** leaves silence as it is, and normalises everything else. -/
theorem normalises_peakNormClip (buf : List (BitVec 8)) :
    ((∀ s ∈ buf, s = 0#8) → peakNormClip buf = buf) ∧
    ∀ peak, IsGreatest (magnitudes buf) peak → peak ≠ 0 →
      ∃ f, Normalises buf (peakNormClip buf) peak f := by
  refine ⟨peakNormClip_of_zero, fun peak hpeak hne => ?_⟩
  have hmem (s : BitVec 8) (hs : s ∈ buf) : |s.toInt| ≤ peak := hpeak.2 ⟨s, hs, rfl⟩
  have hpos : 0 < peak := by
    obtain ⟨s, -, rfl⟩ := hpeak.1
    exact lt_of_le_of_ne (abs_nonneg _) hne.symm
  have hmap := map_peakNormClip hpeak hpos
  refine ⟨scaled peak, hmap, fun hone s => by rw [scaled, if_pos hone],
    fun hone => isRoundAway_scaled hpos hone, scaled_neg hpos, scaled_monotone hpos,
    fun s hs => ?_, ?_, ?_⟩
  · have hle := (abs_scaled_le hpos (hmem s hs)).trans (target_le peak)
    obtain ⟨hlo, hhi⟩ := abs_le.mp hle
    omega
  · -- a sample of the largest magnitude is `peak` or `-peak`
    obtain ⟨s, hs, hps⟩ := hpeak.1
    refine mem_magnitudes.mpr ⟨scaled peak s.toInt, ?_, ?_⟩
    · rw [hmap]
      exact List.mem_map_of_mem hs
    · rw [abs_scaled hpos, ← hps, scaled_peak hpos]
      rfl
  · rintro m hm
    obtain ⟨v, hv, rfl⟩ := mem_magnitudes.mp hm
    rw [hmap] at hv
    obtain ⟨s, hs, rfl⟩ := List.mem_map.mp hv
    exact abs_scaled_le hpos (hmem s hs)

end KwsSoc.Firmware
