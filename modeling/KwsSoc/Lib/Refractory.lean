import Mathlib.Tactic

/-! # Refractory periods

A filter of a stream of candidates that stays silent for the next `hold` of them after each report
(`step`, a counter of what is left of the silence). `Reports` says which candidates it reports,
without the counter: those that no report of the last `hold` steps silences. There is one such log
(`Reports.unique`), its reports are more than `hold` steps apart (`Reports.spaced`), and it answers
every candidate, by itself or by a report at most `hold` steps before (`Reports.answered`). -/

namespace Refractory

variable {α : Type*} {hold ctr : ℕ} {cand : ℕ → Option α} {log : List (Option α)}

/-- One candidate, with `ctr` steps of silence left. -/
def step (hold ctr : ℕ) (cand : Option α) : ℕ × Option α :=
  if 0 < ctr then (ctr - 1, none)
  else
    match cand with
    | some x => (hold, some x)
    | none => (ctr, none)

/-- What the log has for step `j`. -/
def report (log : List (Option α)) (j : ℕ) : Option α := log.getD j none

theorem report_snoc (log : List (Option α)) (r : Option α) (j : ℕ) :
    report (log ++ [r]) j = if j = log.length then r else report log j := by
  unfold report
  rw [List.getD_eq_getElem?_getD, List.getD_eq_getElem?_getD]
  rcases lt_trichotomy j log.length with hlt | rfl | hgt
  · rw [if_neg hlt.ne, List.getElem?_append_left hlt]
  · rw [if_pos rfl, List.getElem?_concat_length, Option.getD_some]
  · rw [if_neg hgt.ne', List.getElem?_eq_none hgt.le, List.getElem?_eq_none]
    rw [List.length_append, List.length_singleton]
    exact hgt

theorem report_snoc_lt {r : Option α} {j : ℕ} (h : j < log.length) :
    report (log ++ [r]) j = report log j := by
  rw [report_snoc, if_neg h.ne]

/-- **The reports** of the candidates: those that no report of the last `hold` steps silences. -/
def Reports (hold : ℕ) (cand : ℕ → Option α) (log : List (Option α)) : Prop :=
  ∀ j < log.length, ∀ x, report log j = some x ↔
    cand j = some x ∧ ∀ i < j, j ≤ i + hold → report log i = none

/-- What the counter says of the log: `d` steps from now it is still silent. -/
def Counts (hold : ℕ) (log : List (Option α)) (ctr : ℕ) : Prop :=
  ∀ d, d < ctr ↔ ∃ i < log.length, report log i ≠ none ∧ log.length + d ≤ i + hold

theorem reports_nil (hold : ℕ) (cand : ℕ → Option α) : Reports hold cand [] := by
  intro j hj
  exact absurd hj (Nat.not_lt_zero j)

theorem counts_nil (hold : ℕ) : Counts hold ([] : List (Option α)) 0 := by
  intro d
  constructor
  · intro hd
    exact absurd hd (Nat.not_lt_zero d)
  · rintro ⟨i, hi, -⟩
    exact absurd hi (Nat.not_lt_zero i)

/-- The counter is zero when nothing silences the next step. -/
theorem Counts.zero_iff (hc : Counts hold log ctr) :
    ctr = 0 ↔ ∀ i < log.length, log.length ≤ i + hold → report log i = none := by
  have hpos := hc 0
  constructor
  · rintro rfl i hi hle
    by_contra hne
    exact absurd (hpos.mpr ⟨i, hi, hne, hle⟩) (lt_irrefl 0)
  · intro hnone
    by_contra hne
    obtain ⟨i, hi, hrep, hle⟩ := hpos.mp (Nat.pos_of_ne_zero hne)
    exact hrep (hnone i hi hle)

/-- A log grows by a step that follows the rule. -/
theorem Reports.snoc (h : Reports hold cand log) {r : Option α}
    (hr : ∀ x, r = some x ↔ cand log.length = some x ∧
      ∀ i < log.length, log.length ≤ i + hold → report log i = none) :
    Reports hold cand (log ++ [r]) := by
  intro j hj x
  rw [List.length_append, List.length_singleton] at hj
  -- the reports before `j` are those of the old log
  have hbefore : (∀ i < j, j ≤ i + hold → report (log ++ [r]) i = none) ↔
      ∀ i < j, j ≤ i + hold → report log i = none := by
    refine forall₂_congr fun i hi => ?_
    rw [report_snoc_lt (by omega)]
  rw [hbefore]
  rcases Nat.lt_succ_iff_lt_or_eq.mp hj with hlt | rfl
  · rw [report_snoc_lt hlt]
    exact h j hlt x
  · rw [report_snoc, if_pos rfl]
    exact hr x

/-- **A step of the filter** adds its report. -/
theorem Reports.step (h : Reports hold cand log) (hc : Counts hold log ctr) :
    Reports hold cand (log ++ [(step hold ctr (cand log.length)).2]) := by
  apply h.snoc
  intro x
  rw [← hc.zero_iff]
  unfold Refractory.step
  split
  · constructor
    · intro hx
      cases hx
    · rintro ⟨-, hzero⟩
      omega
  · rename_i hzero
    have hctr : ctr = 0 := Nat.eq_zero_of_not_pos hzero
    cases cand log.length with
    | none => exact ⟨fun hx => absurd hx (Option.some_ne_none x).symm, fun hx => hx.1⟩
    | some y => exact ⟨fun hx => ⟨hx, hctr⟩, fun hx => hx.1⟩

/-- **A step of the filter** counts on. -/
theorem Counts.step (hc : Counts hold log ctr) (c : Option α) :
    Counts hold (log ++ [(step hold ctr c).2]) (step hold ctr c).1 := by
  intro d
  have hlater := hc (d + 1)
  rw [List.length_append, List.length_singleton, Nat.add_right_comm, Nat.add_assoc]
  -- a silent step is not a report, so the reports that count are the old ones
  have hsilent : (∃ i < log.length + 1, report (log ++ [none]) i ≠ none ∧
      log.length + (d + 1) ≤ i + hold) ↔ d + 1 < ctr := by
    rw [hlater]
    constructor
    · rintro ⟨i, hi, hne, hle⟩
      rw [report_snoc] at hne
      split at hne
      · exact absurd rfl hne
      · exact ⟨i, by omega, hne, hle⟩
    · rintro ⟨i, hi, hne, hle⟩
      rw [← report_snoc_lt hi] at hne
      exact ⟨i, by omega, hne, hle⟩
  unfold Refractory.step
  split
  · rw [hsilent]
    show d < ctr - 1 ↔ _
    omega
  · rename_i hzero
    cases c with
    | none =>
      rw [hsilent]
      show d < ctr ↔ _
      omega
    | some x =>
      show d < hold ↔ _
      constructor
      · intro hd
        refine ⟨log.length, by omega, ?_, by omega⟩
        rw [report_snoc, if_pos rfl]
        exact Option.some_ne_none x
      · rintro ⟨i, hi, -, hle⟩
        omega

/-- **There is one log** of a length. -/
theorem Reports.unique {log' : List (Option α)} (h : Reports hold cand log)
    (h' : Reports hold cand log') (hlen : log.length = log'.length) : log = log' := by
  have hall : ∀ j < log.length, report log j = report log' j := by
    intro j
    -- on the reports before
    induction j using Nat.strongRecOn with
    | ind j ih =>
      intro hj
      apply Option.ext
      intro x
      rw [h j hj x, h' j (hlen ▸ hj) x]
      refine and_congr_right fun _ => forall₂_congr fun i hi => ?_
      rw [ih i hi (hi.trans hj)]
  apply List.ext_getElem hlen
  intro j hj hj'
  have hreport := hall j hj
  unfold report at hreport
  rwa [List.getD_eq_getElem?_getD, List.getD_eq_getElem?_getD, List.getElem?_eq_getElem hj,
    List.getElem?_eq_getElem hj', Option.getD_some, Option.getD_some] at hreport

/-- **Reports are apart.** -/
theorem Reports.spaced (h : Reports hold cand log) {i j : ℕ} (hij : i < j) (hj : j < log.length)
    (hi : report log i ≠ none) (hne : report log j ≠ none) : i + hold < j := by
  obtain ⟨x, hx⟩ := Option.ne_none_iff_exists'.mp hne
  by_contra hle
  exact hi (((h j hj x).mp hx).2 i hij (not_lt.mp hle))

/-- **Every candidate is answered**, by its report or by one at most `hold` steps before. -/
theorem Reports.answered (h : Reports hold cand log) {j : ℕ} (hj : j < log.length) {x : α}
    (hx : cand j = some x) : ∃ i ≤ j, j ≤ i + hold ∧ report log i ≠ none := by
  by_contra hno
  push Not at hno
  have hnone : report log j = none := hno j le_rfl (Nat.le_add_right j hold)
  have hsome := (h j hj x).mpr ⟨hx, fun i hi hle => hno i hi.le hle⟩
  rw [hnone] at hsome
  cases hsome

end Refractory
