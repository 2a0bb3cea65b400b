import KwsSoc.Heap.Contracts

/-! # Alignment of the pointers

`ALIGNMENT` is 8, and both `heap_lo` and every rounded request are multiples of it; a header has 12
bytes. So the first payload of the heap lies at 4 modulo 8, and this is the payload that the first
request to succeed gets. **`session_aligned_iff`**: the pointers of a session are aligned only if
there are none. -/

namespace KwsSoc.Heap

open BlockList

namespace Sys

/-- The sessions of C calls, each call with what it returned, the last one first. -/
inductive Session (L : Layout) : List (Call × ℕ) → Sys → Prop
  | boot (mem : ByteMemory.Mem) : Session L [] (boot mem)
  | call {evs : List (Call × ℕ)} {s s' : Sys} {c : Call} {r : ℕ} (hs : Session L evs s)
      (hc : s.Valid c) (heq : s.call L c = some (s', r)) : Session L ((c, r) :: evs) s'

/-- The request is for some bytes, passes the overflow check of `calloc`, and is not larger than
the whole heap when it is rounded up. -/
def FitsFresh (L : Layout) (n : ℕ) : Prop :=
  n ≠ 0 ∧ n < 2 ^ 32 ∧ alignUp n ALIGNMENT ≤ L.initial.size

/-- Nothing is live. -/
def Fresh (L : Layout) (s : Sys) : Prop := (∀ p, s.live p = none) ∧ ∃ bs, Inv L s bs

section Alignment

variable {L : Layout} {s s' : Sys} {c : Call} {r : ℕ} {evs : List (Call × ℕ)}

/-- Where nothing is live, `malloc` has the whole heap to take from. -/
theorem Fresh.malloc (hs : Fresh L s) {size : ℕ} (hsize : size < 2 ^ 32) :
    (¬ FitsFresh L size ∧ ∃ h, malloc L s.heap size = some (h, NULL) ∧ Fresh L ⟨h, s.live⟩) ∨
      FitsFresh L size ∧ ∃ h, malloc L s.heap size = some (h, L.heapLo + sizeofHeader) := by
  obtain ⟨hlive, bs, hinv⟩ := hs
  by_cases hzero : size = 0
  · exact .inl ⟨fun h => h.1 hzero, s.heap, by rw [hzero, malloc_zero], hlive, bs, hinv⟩
  obtain ⟨is, hinit, hne, hused, hcases⟩ := malloc_cases hinv.heap hzero
  -- the heap is one free block, since no block is in use
  have hfree (b : Block) (hb : b ∈ is) : b.free = true := by
    by_contra hbf
    obtain ⟨hb', hbf'⟩ := (hused b).mp ⟨hb, by simpa using hbf⟩
    obtain ⟨n, hn⟩ := hinv.used b hb' hbf'
    rw [hlive] at hn
    cases hn
  obtain ⟨hlo, hhi⟩ := hinit.bounds hne
  have hroom := L.heapLo_add_lt
  have htiles := hinit.tiles
  rw [hlo, hhi] at htiles
  obtain rfl : is = [L.initial] := eq_single htiles hinit.apart (by omega) hfree
  rcases hcases with ⟨heq, hsmall⟩ | ⟨h, bs', b, hb, n, -, hn, heq, hh, hused', -⟩
  · refine .inl ⟨fun hfit => ?_, _, heq, hlive, _, hinv.keep hinit hused⟩
    exact absurd (hsmall L.initial List.mem_cons_self rfl) (Nat.not_lt.mpr hfit.2.2)
  · obtain rfl := List.mem_singleton.mp hb
    refine .inr ⟨⟨hzero, hsize, hn.trans ?_⟩, h, heq⟩
    -- the new block lies within the heap
    have hmem := ((hused' ⟨L.initial.addr, n, false⟩).mpr (.inl rfl)).1
    have hstop := (hh.tiles.bounds hmem).2
    rw [(hh.bounds (List.ne_nil_of_mem hmem)).2] at hstop
    simp only [Block.stop, Layout.initial] at hstop ⊢
    omega

/-- `calloc` fails for nothing and for too much, and is `malloc` otherwise. -/
theorem Fresh.calloc {nmemb size : ℕ} (hs : Fresh L s) (hc : s.Valid (.calloc nmemb size))
    (heq : s.call L (.calloc nmemb size) = some (s', r)) :
    (¬ FitsFresh L (Call.calloc nmemb size).request ∧ r = NULL ∧ Fresh L s') ∨
      FitsFresh L (Call.calloc nmemb size).request ∧ r = L.heapLo + sizeofHeader := by
  have hfirst : L.heapLo + sizeofHeader ≠ NULL := add_sizeofHeader_ne_null L.heapLo
  by_cases hzero : nmemb = 0 ∨ size = 0
  · simp only [Sys.call, Heap.calloc, if_pos hzero, malloc_zero] at heq
    cases heq
    refine .inl ⟨fun hfit => hfit.1 ?_, rfl, hs⟩
    exact Nat.mul_eq_zero.mpr hzero
  have hk := (not_or.mp hzero).2
  by_cases hover : 2 ^ 32 ≤ nmemb * size
  · simp only [Sys.call, Heap.calloc, if_neg hzero, safeSizeMul_of_overflow hc.1 hover] at heq
    cases heq
    exact .inl ⟨fun hfit => Nat.not_lt.mpr hover hfit.2.1, rfl, hs⟩
  have hlt := Nat.lt_of_not_le hover
  simp only [Sys.call, Heap.calloc, if_neg hzero, safeSizeMul_of_lt hc.1 hk hlt,
    Option.bind_eq_bind] at heq
  rcases hs.malloc hlt with ⟨hfit, h, hmalloc, hh⟩ | ⟨hfit, h, hmalloc⟩
  · rw [hmalloc] at heq
    cases heq
    exact .inl ⟨hfit, rfl, hh⟩
  · simp only [hmalloc, Option.bind_some, if_neg hfirst] at heq
    cases heq
    exact .inr ⟨hfit, rfl⟩

/-- **One call where nothing is live**: it fails and nothing is live, or it gets the first
payload. -/
theorem Fresh.call (hs : Fresh L s) (hc : s.Valid c) (heq : s.call L c = some (s', r)) :
    (¬ FitsFresh L c.request ∧ r = NULL ∧ Fresh L s') ∨
      FitsFresh L c.request ∧ r = L.heapLo + sizeofHeader := by
  have hnull {p : ℕ} (hp : s.Owns p) : p = NULL := by
    rcases hp with hp | ⟨n, hn⟩
    · exact hp
    · rw [hs.1] at hn
      cases hn
  have hfirst : L.heapLo + sizeofHeader ≠ NULL := add_sizeofHeader_ne_null L.heapLo
  have hdrop : drop s.live NULL = s.live := by
    obtain ⟨-, bs, hinv⟩ := hs
    exact hinv.drop_null
  cases c with
  | malloc size =>
    rcases hs.malloc hc with ⟨hfit, h, hmalloc, hh⟩ | ⟨hfit, h, hmalloc⟩
    · rw [Sys.call, hmalloc] at heq
      cases heq
      exact .inl ⟨hfit, rfl, hh⟩
    · rw [Sys.call, hmalloc] at heq
      cases heq
      exact .inr ⟨hfit, rfl⟩
  | calloc nmemb size => exact hs.calloc hc heq
  | realloc ptr size =>
    obtain rfl := hnull hc.1
    have hrealloc : Heap.realloc L s.heap NULL size = Heap.malloc L s.heap size := if_pos rfl
    rcases hs.malloc hc.2 with ⟨hfit, h, hmalloc, hh⟩ | ⟨hfit, h, hmalloc⟩
    · rw [Sys.call, hrealloc, hmalloc, Option.map_some, hdrop, grant_null, ite_self] at heq
      cases heq
      exact .inl ⟨hfit, rfl, hh⟩
    · rw [Sys.call, hrealloc, hmalloc, Option.map_some, if_neg fun h => hfirst h.1] at heq
      cases heq
      exact .inr ⟨hfit, rfl⟩
  | free ptr =>
    obtain rfl := hnull hc
    have hfree : Heap.free s.heap NULL = some s.heap := if_pos rfl
    rw [Sys.call, hfree, Option.map_some, hdrop] at heq
    cases heq
    exact .inl ⟨fun hfit => hfit.1 rfl, rfl, hs⟩
  | store addr val =>
    obtain ⟨p, n, hn, -⟩ := hc
    rw [hs.1] at hn
    cases hn

theorem fresh_boot (L : Layout) (mem : ByteMemory.Mem) : Fresh L (boot mem) :=
  ⟨fun _ => rfl, [], inv_boot L mem⟩

/-- A session whose requests all fail leaves nothing live. -/
theorem Session.fresh (hs : Session L evs s) (hfit : ∀ e ∈ evs, ¬ FitsFresh L e.1.request) :
    Fresh L s ∧ ∀ e ∈ evs, e.2 = NULL := by
  induction hs with
  | boot mem => exact ⟨fresh_boot L mem, fun e he => absurd he List.not_mem_nil⟩
  | @call evs s s' c r hs hc heq ih =>
    obtain ⟨hlast, hevs⟩ := List.forall_mem_cons.mp hfit
    obtain ⟨hfresh, hnull⟩ := ih hevs
    rcases hfresh.call hc heq with ⟨-, hr, hs'⟩ | ⟨hfits, -⟩
    · exact ⟨hs', List.forall_mem_cons.mpr ⟨hr, hnull⟩⟩
    · exact absurd hfits hlast

/-- The first request of a session that does not fail gets the first payload of the heap. -/
theorem Session.first (hs : Session L evs s) (hfit : ∃ e ∈ evs, FitsFresh L e.1.request) :
    ∃ e ∈ evs, e.2 = L.heapLo + sizeofHeader := by
  induction hs with
  | boot mem =>
    obtain ⟨e, he, -⟩ := hfit
    exact absurd he List.not_mem_nil
  | @call evs s s' c r hs hc heq ih =>
    by_cases hevs : ∃ e ∈ evs, FitsFresh L e.1.request
    · obtain ⟨e, he, hr⟩ := ih hevs
      exact ⟨e, List.mem_cons_of_mem _ he, hr⟩
    · -- all requests before the last one failed
      have hall : ∀ e ∈ evs, ¬ FitsFresh L e.1.request := fun e he hfits => hevs ⟨e, he, hfits⟩
      have hlast : FitsFresh L c.request := by
        obtain ⟨e, he, hfits⟩ := hfit
        rcases List.mem_cons.mp he with rfl | he
        · exact hfits
        · exact absurd hfits (hall e he)
      rcases (hs.fresh hall).1.call hc heq with ⟨hfits, -⟩ | ⟨-, hr⟩
      · exact absurd hlast hfits
      · exact ⟨(c, r), List.mem_cons_self, hr⟩

/-- The first payload lies at 4 modulo 8. -/
theorem heapLo_payload_mod (L : Layout) : (L.heapLo + sizeofHeader) % ALIGNMENT = 4 := by
  have hlo : L.heapLo = (L.ebss + 7) / 8 * 8 := alignUp_eq_div L.ebss_add_lt
  simp only [hlo, sizeofHeader, ALIGNMENT]
  omega

/-- **The pointers of a session are aligned exactly if no request of it fits the fresh heap**, and
then there are none. -/
theorem session_aligned_iff (hs : Session L evs s) :
    (∀ e ∈ evs, e.2 ≠ NULL → ALIGNMENT ∣ e.2) ↔ ∀ e ∈ evs, ¬ FitsFresh L e.1.request := by
  constructor
  · intro haligned e he hfits
    obtain ⟨f, hf, hr⟩ := hs.first ⟨e, he, hfits⟩
    have hdvd := haligned f hf (by rw [hr]; exact add_sizeofHeader_ne_null L.heapLo)
    rw [hr, Nat.dvd_iff_mod_eq_zero, heapLo_payload_mod] at hdvd
    cases hdvd
  · intro hfit e he hr
    exact absurd ((hs.fresh hfit).2 e he) hr

end Alignment

/-- A request for more than a small heap has fails, so that the session has no pointers. -/
theorem session_aligned_iff_large : ∃ s r,
    (boot fun _ => 0).call smallLayout (.malloc 4000) = some (s, r) ∧
      (r ≠ NULL → ALIGNMENT ∣ r) := by
  have h : ((boot fun _ => 0).call smallLayout (.malloc 4000)).map Prod.snd = some NULL := by
    decide +kernel
  obtain ⟨⟨s, r⟩, heq, -⟩ := Option.map_eq_some_iff.mp h
  have hvalid : (boot fun _ => 0).Valid (.malloc 4000) := by
    show 4000 < 2 ^ 32
    decide
  have hfit : ¬ FitsFresh smallLayout 4000 := fun hfit => absurd hfit.2.2 (by decide)
  exact ⟨s, r, heq, (session_aligned_iff (.call (.boot _) hvalid heq)).mpr
    (List.forall_mem_singleton.mpr hfit) _ List.mem_cons_self⟩

/-- The first allocation of a small heap. -/
theorem malloc_unaligned : ∃ s,
    (boot fun _ => 0).call smallLayout (.malloc 8) = some (s, 28) ∧
      Session smallLayout [(.malloc 8, 28)] s ∧ ¬ ALIGNMENT ∣ 28 := by
  have h : ((boot fun _ => 0).call smallLayout (.malloc 8)).map Prod.snd = some 28 := by
    decide +kernel
  obtain ⟨⟨s, r⟩, heq, rfl⟩ := Option.map_eq_some_iff.mp h
  have hvalid : (boot fun _ => 0).Valid (.malloc 8) := by
    show 8 < 2 ^ 32
    decide
  exact ⟨s, heq, .call (.boot _) hvalid heq, by decide⟩

end Sys

end KwsSoc.Heap
