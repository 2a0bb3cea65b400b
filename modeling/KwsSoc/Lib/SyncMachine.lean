import Mathlib.Logic.Function.Iterate
import Mathlib.Order.Basic

/-! # Synchronous machines: traces, invariants and ranked stuttering simulation

A clocked design is a step function `step : σ → ι → σ` read once per clock edge. This file gives
the rules the proofs about such designs use, for arbitrary states and inputs:

* **`trace step s₀ i n`** — the state in cycle `n` when the inputs are `i 0, i 1, …`.
* **`trace_stretch`** — a stretch of a run, as a run on the inputs of that stretch.
* **`trace_comp`** — a run on translated inputs, as a run of the design that translates them.
* **`trace_invariant`** — a predicate that holds at the start and across every edge holds in
  every cycle.
* **`StutterSim`** — a ranked stuttering simulation of a design by a deterministic sequential
  program: an edge either matches one step of the program or leaves the program where it is, and
  then an enabled edge lowers a rank. `StutterSim.exists_iterate` transports runs of the design
  to the program, `StutterSim.exists_trace` transports runs of the program to the design, provided
  enabled edges never stop coming.
* **`exists_iterate_of_rank`** — a program that lowers a rank until it is done gets done. -/

namespace SyncMachine

variable {σ ι α : Type*}

/-- **The state in cycle `n`**, starting in `s₀` and reading the inputs `i 0, i 1, …`. -/
def trace (step : σ → ι → σ) (s₀ : σ) (i : ℕ → ι) : ℕ → σ
  | 0 => s₀
  | n + 1 => step (trace step s₀ i n) (i n)

@[simp] theorem trace_zero (step : σ → ι → σ) (s₀ : σ) (i : ℕ → ι) : trace step s₀ i 0 = s₀ := rfl

theorem trace_succ (step : σ → ι → σ) (s₀ : σ) (i : ℕ → ι) (n : ℕ) :
    trace step s₀ i (n + 1) = step (trace step s₀ i n) (i n) := rfl

/-- Running `m + n` cycles is running `m` cycles and then `n` more on the later inputs. -/
theorem trace_add (step : σ → ι → σ) (s₀ : σ) (i : ℕ → ι) (m n : ℕ) :
    trace step s₀ i (m + n) = trace step (trace step s₀ i m) (fun k => i (m + k)) n := by
  induction n with
  | zero => rfl
  | succ n ih => rw [← Nat.add_assoc, trace_succ, trace_succ, ih]

/-- A run depends on the inputs read so far only. -/
theorem trace_congr {step : σ → ι → σ} {s₀ : σ} {i j : ℕ → ι} {n : ℕ} (h : ∀ k < n, i k = j k) :
    trace step s₀ i n = trace step s₀ j n := by
  induction n with
  | zero => rfl
  | succ n ih =>
    rw [trace_succ, trace_succ, ih (fun k hk => h k (Nat.lt_succ_of_lt hk)),
      h n (Nat.lt_succ_self n)]

/-- **A stretch of a run** is a run on the inputs of that stretch. -/
theorem trace_stretch {step : σ → ι → σ} {s₀ : σ} {i j : ℕ → ι} {m n : ℕ}
    (h : ∀ k < n, i (m + k) = j k) :
    trace step s₀ i (m + n) = trace step (trace step s₀ i m) j n := by
  rw [trace_add]
  exact trace_congr h

/-- A run on translated inputs. -/
theorem trace_comp {κ : Type*} (step : σ → ι → σ) (f : κ → ι) (s₀ : σ) (i : ℕ → κ) (n : ℕ) :
    trace step s₀ (fun k => f (i k)) n = trace (fun s x => step s (f x)) s₀ i n := by
  induction n with
  | zero => rfl
  | succ n ih => rw [trace_succ, trace_succ, ih]

/-- **Invariant rule.** A predicate that holds initially and is preserved by every edge of the
run holds in every cycle. -/
theorem trace_invariant {step : σ → ι → σ} {s₀ : σ} {i : ℕ → ι} (P : σ → Prop) (h₀ : P s₀)
    (hstep : ∀ n, P (trace step s₀ i n) → P (step (trace step s₀ i n) (i n))) (n : ℕ) :
    P (trace step s₀ i n) := by
  induction n with
  | zero => exact h₀
  | succ n ih => exact hstep n ih

/-- **Termination rule.** A program that keeps an invariant and lowers a rank as long as it is not
done gets done. -/
theorem exists_iterate_of_rank {prog : α → α} (Inv Done : α → Prop) (rank : α → ℕ)
    (hstep : ∀ a, Inv a → ¬ Done a → Inv (prog a) ∧ rank (prog a) < rank a) {a : α} (ha : Inv a) :
    ∃ k, Done (prog^[k] a) := by
  induction hr : rank a using Nat.strongRecOn generalizing a with
  | ind r ih =>
    by_cases hd : Done a
    · exact ⟨0, hd⟩
    · obtain ⟨hinv, hlt⟩ := hstep a ha hd
      obtain ⟨k, hk⟩ := ih _ (hr ▸ hlt) hinv rfl
      exact ⟨k + 1, hk⟩

/-- **Ranked stuttering simulation.** Under the input condition `Ok`, every edge of the design
either matches one step of the program `prog`, or keeps the program state and does not raise the
rank; an *enabled* edge (`Go`) that keeps the program state lowers the rank. -/
structure StutterSim (step : σ → ι → σ) (prog : α → α) (R : α → σ → Prop)
    (Ok : σ → ι → Prop) (Go : ι → Prop) (rank : σ → ℕ) : Prop where
  /-- An edge matches a program step or stutters below the rank. -/
  edge : ∀ a s x, R a s → Ok s x → R (prog a) (step s x) ∨
    (R a (step s x) ∧ rank (step s x) ≤ rank s ∧ (Go x → rank (step s x) < rank s))

namespace StutterSim

variable {step : σ → ι → σ} {prog : α → α} {R : α → σ → Prop} {Ok : σ → ι → Prop}
  {Go : ι → Prop} {rank : σ → ℕ} {s₀ : σ} {i : ℕ → ι} {a : α}

/-- **Runs of the design are runs of the program**: every state of the run is related to some
iterate of the program. -/
theorem exists_iterate (h : StutterSim step prog R Ok Go rank) (h₀ : R a s₀)
    (hok : ∀ n, Ok (trace step s₀ i n) (i n)) (n : ℕ) :
    ∃ k, R (prog^[k] a) (trace step s₀ i n) := by
  induction n with
  | zero => exact ⟨0, h₀⟩
  | succ n ih =>
    obtain ⟨k, hk⟩ := ih
    rcases h.edge _ _ _ hk (hok n) with hm | ⟨hs, -, -⟩
    · exact ⟨k + 1, by rw [Function.iterate_succ_apply']; exact hm⟩
    · exact ⟨k, hs⟩

/-- From a related state, a further program step is matched later in the run, when enabled edges
never stop coming. The induction is on the rank, and inside it on the distance to the next
enabled edge. -/
theorem exists_next (h : StutterSim step prog R Ok Go rank)
    (hok : ∀ n, Ok (trace step s₀ i n) (i n)) (hgo : ∀ n, ∃ m, n ≤ m ∧ Go (i m)) (n : ℕ)
    (hn : R a (trace step s₀ i n)) : ∃ m, R (prog a) (trace step s₀ i m) := by
  induction hr : rank (trace step s₀ i n) using Nat.strongRecOn generalizing n with
  | ind r ihr =>
    obtain ⟨m, hnm, hm⟩ := hgo n
    obtain ⟨d, rfl⟩ := Nat.exists_eq_add_of_le hnm
    clear hnm
    induction d generalizing n with
    | zero =>
      rcases h.edge _ _ _ hn (hok n) with hp | ⟨hs, -, hlt⟩
      · exact ⟨n + 1, hp⟩
      · exact ihr _ (hr ▸ hlt hm) (n + 1) hs rfl
    | succ d ihd =>
      rcases h.edge _ _ _ hn (hok n) with hp | ⟨hs, hle, -⟩
      · exact ⟨n + 1, hp⟩
      · rcases Nat.lt_or_eq_of_le hle with hlt | heq
        · exact ihr _ (hr ▸ hlt) (n + 1) hs rfl
        · exact ihd (n + 1) hs (by rw [trace_succ, heq, hr])
            (by rw [show n + 1 + d = n + (d + 1) by omega]; exact hm)

/-- **Runs of the program are runs of the design**: when enabled edges never stop coming, every
iterate of the program is related to some state of the run. -/
theorem exists_trace (h : StutterSim step prog R Ok Go rank) (h₀ : R a s₀)
    (hok : ∀ n, Ok (trace step s₀ i n) (i n)) (hgo : ∀ n, ∃ m, n ≤ m ∧ Go (i m)) (k : ℕ) :
    ∃ n, R (prog^[k] a) (trace step s₀ i n) := by
  induction k with
  | zero => exact ⟨0, h₀⟩
  | succ k ih =>
    obtain ⟨n, hn⟩ := ih
    obtain ⟨m, hm⟩ := h.exists_next hok hgo n hn
    exact ⟨m, by rw [Function.iterate_succ_apply']; exact hm⟩

end StutterSim

end SyncMachine
