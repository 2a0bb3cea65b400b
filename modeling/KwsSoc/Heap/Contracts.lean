import KwsSoc.Heap.Session

/-! # What a request of any size gets

`need = (size + 7) & ~7` is 0 for the seven largest sizes, so a request can pass the size test of
`malloc` in a block of any size. This file takes sessions whose calls have any 32-bit arguments:

* **`SizedRun`** — sessions in which no request is one of those seven on a heap with a free block;
  they reach the same states as the sessions of `Reachable`;
* **`inBlock_iff`** — at their states a call serves its request exactly under that condition;
* **`calloc_realloc_contract`** — what `realloc` and `calloc` do to contents, to the other payloads
  and to the heap. -/

namespace KwsSoc.Heap

open ByteMemory BlockList

/-! ## Sizes that wrap -/

/-- Above `maxRequest` the rounding wraps to 0. -/
theorem alignUp_of_gt {v : ℕ} (hlt : maxRequest < v) (hv : v < 2 ^ 32) :
    alignUp v ALIGNMENT = 0 := by
  simp only [alignUp, u32, alignDown, ALIGNMENT, maxRequest] at hlt ⊢
  omega

/-- A product that does not fit 32 bits fails the overflow check. -/
theorem safeSizeMul_of_overflow {a b : ℕ} (ha : a < 2 ^ 32) (hab : 2 ^ 32 ≤ a * b) :
    safeSizeMul a b = none := by
  have hne : ¬ (a = 0 ∨ b = 0) := by
    rintro (rfl | rfl)
    · omega
    · omega
  rw [safeSizeMul, if_neg hne, mulLoop_eq (by decide) ha, if_neg (by omega)]

theorem safeSizeMul_of_lt {a b : ℕ} (ha : a < 2 ^ 32) (hb : b ≠ 0) (hab : a * b < 2 ^ 32) :
    safeSizeMul a b = some (a * b) := by
  rw [safeSizeMul]
  split
  · next hzero =>
    rcases hzero with rfl | rfl
    · rw [Nat.zero_mul]
    · exact absurd rfl hb
  · rw [mulLoop_eq (by decide) ha, if_pos (by omega), Nat.zero_add]

section Full

variable {L : Layout} {s : State} {bs bs' : List Block}

/-- A state has one list. -/
theorem HeapInv.unique (h : HeapInv L s bs) (h' : HeapInv L s bs') : bs = bs' :=
  h.chain.unique h'.chain h.tiles h'.tiles

/-- On a heap without a free block every request fails, and changes nothing. -/
theorem malloc_of_full (h : HeapInv L s bs) (hne : bs ≠ []) (hfull : ∀ b ∈ bs, b.free = false)
    (size : ℕ) : malloc L s size = some (s, NULL) := by
  by_cases hsize : size = 0
  · rw [hsize, malloc_zero]
  obtain ⟨is, hinit, -, -, ⟨heq, -⟩ | ⟨s', bs', b, hb, n, hfree, -⟩⟩ := malloc_cases h hsize
  · rw [heq, h.init_eq hne]
  · rw [h.init_eq hne] at hinit
    rw [hinit.unique h] at hb
    exact absurd (hfree.symm.trans (hfull b hb)) (by decide)

/-- A request that wraps takes any free block, so that it fails on a full heap only. -/
theorem malloc_of_wrap (h : HeapInv L s bs) {size : ℕ} (hlt : maxRequest < size)
    (hsize : size < 2 ^ 32) (hfull : ¬ (bs ≠ [] ∧ ∀ b ∈ bs, b.free = false)) :
    ∃ s' p, malloc L s size = some (s', p) ∧ p ≠ NULL ∧ s'.heapHi = L.heapHi := by
  obtain ⟨is, hinit, hne, hused, ⟨-, hsmall⟩ |
    ⟨s', bs', b, hb, n, -, -, heq, hs', hused', -⟩⟩ := malloc_cases h (Nat.ne_zero_of_lt hlt)
  · -- no free block is smaller than 0
    have hall (b : Block) (hb : b ∈ is) : b.free = false := by
      by_contra hfree
      have := hsmall b hb (by simpa using hfree)
      rw [alignUp_of_gt hlt hsize] at this
      omega
    by_cases hnil : bs = []
    · subst hnil
      obtain ⟨b, hb⟩ := List.exists_mem_of_ne_nil is hne
      exact absurd ((hused b).mp ⟨hb, hall b hb⟩).1 List.not_mem_nil
    · rw [h.init_eq hnil] at hinit
      rw [hinit.unique h] at hall
      exact absurd ⟨hnil, hall⟩ hfull
  · exact ⟨s', _, heq, add_sizeofHeader_ne_null b.addr, (hs'.bounds fun hnil => by
      rw [hnil] at hused'
      exact List.not_mem_nil ((hused' ⟨b.addr, n, false⟩).mpr (.inl rfl)).1).2⟩

/-- `free` moves no bound. -/
theorem heapHi_free {ptr : ℕ} {s' : State} (heq : free s ptr = some s') : s'.heapHi = s.heapHi := by
  rw [free] at heq
  split at heq
  · cases heq
    rfl
  · obtain ⟨m, -, rfl⟩ := Option.map_eq_some_iff.mp heq
    rfl

end Full

/-! ## Calls with any arguments -/

/-- The bytes that a call asks for. -/
def Call.request : Call → ℕ
  | .malloc size => size
  | .calloc nmemb size => nmemb * size
  | .realloc _ size => size
  | .free _ => 0
  | .store _ _ => 0

namespace Sys

/-- A C call: 32-bit sizes, live pointers (or `NULL`), and stores into live payloads. -/
def Valid (s : Sys) : Call → Prop
  | .malloc size => size < 2 ^ 32
  | .calloc nmemb size => nmemb < 2 ^ 32 ∧ size < 2 ^ 32
  | .realloc ptr size => s.Owns ptr ∧ size < 2 ^ 32
  | .free ptr => s.Owns ptr
  | .store addr _ => ∃ p n, s.live p = some n ∧ p ≤ addr ∧ addr < p + n

/-- The heap is set up, and none of its blocks is free. -/
def Full (L : Layout) (s : Sys) : Prop :=
  ∃ bs, Sound L s bs ∧ bs ≠ [] ∧ ∀ b ∈ bs, b.free = false

/-- The request does not wrap when it is rounded up, or is turned down before the rounding counts:
by the overflow check of `calloc`, or because no block is free. -/
def Sized (L : Layout) (s : Sys) (c : Call) : Prop :=
  c.request ≤ maxRequest ∨ 2 ^ 32 ≤ c.request ∨ s.Full L

/-- **The request is served**: the call returns, and returns `NULL` or the payload of a used block
of the heap that has as many bytes as were asked for. -/
def InBlock (L : Layout) (s : Sys) (c : Call) : Prop :=
  ∃ s' r, s.call L c = some (s', r) ∧ (r = NULL ∨ ∃ bs, Sound L s' bs ∧
    ∃ b ∈ bs, b.free = false ∧ r = b.payload sizeofHeader ∧ c.request ≤ b.size)

/-- The states reached by sessions of such calls, each with a request of the right size. -/
inductive SizedRun (L : Layout) : Sys → Prop
  | boot (mem : Mem) : SizedRun L (boot mem)
  | call {s s' : Sys} {c : Call} {r : ℕ} (hs : SizedRun L s) (hc : s.Valid c)
      (hz : s.Sized L c) (heq : s.call L c = some (s', r)) : SizedRun L s'

section Sizes

variable {L : Layout} {s s' : Sys} {bs : List Block} {c : Call} {r : ℕ}

theorem Valid.allowed (hc : s.Valid c) (hmax : c.request ≤ maxRequest) : s.Allowed c := by
  cases c with
  | malloc size => exact hmax
  | calloc nmemb size => exact hmax
  | realloc ptr size => exact ⟨hc.1, hmax⟩
  | free ptr => exact hc
  | store addr val => exact hc

theorem Inv.full_iff (hs : Inv L s bs) : s.Full L ↔ bs ≠ [] ∧ ∀ b ∈ bs, b.free = false := by
  constructor
  · rintro ⟨cs, hcs, hne, hall⟩
    rw [hs.heap.chain.unique hcs.chain hs.heap.tiles hcs.tiles]
    exact ⟨hne, hall⟩
  · rintro ⟨hne, hall⟩
    exact ⟨bs, hs.sound, hne, hall⟩

/-- What is returned is live, with the size that was asked for. -/
theorem live_of_call (heq : s.call L c = some (s', r)) (hr : r ≠ NULL) :
    s'.live r = some c.request := by
  cases c with
  | malloc size =>
    obtain ⟨⟨h, p⟩, -, hp⟩ := Option.map_eq_some_iff.mp heq
    cases hp
    exact (congrFun (grant_of_ne hr size) p).trans (Function.update_self ..)
  | calloc nmemb size =>
    obtain ⟨⟨h, p⟩, -, hp⟩ := Option.map_eq_some_iff.mp heq
    cases hp
    exact (congrFun (grant_of_ne hr _) p).trans (Function.update_self ..)
  | realloc ptr size =>
    obtain ⟨⟨h, p⟩, -, hp⟩ := Option.map_eq_some_iff.mp heq
    by_cases hnull : p = NULL
    · split at hp <;> cases hp <;> exact absurd hnull hr
    · rw [if_neg fun h => hnull h.1] at hp
      cases hp
      exact (congrFun (grant_of_ne hr _) p).trans (Function.update_self ..)
  | free ptr =>
    obtain ⟨h, -, hp⟩ := Option.map_eq_some_iff.mp heq
    cases hp
    exact absurd rfl hr
  | store addr val =>
    cases heq
    exact absurd rfl hr

/-- **A request that does not wrap is served.** -/
theorem Inv.inBlock (hs : Inv L s bs) (hc : s.Allowed c) : s.InBlock L c := by
  obtain ⟨s', r, bs', heq, hinv⟩ := keeps hs hc
  refine ⟨s', r, heq, ?_⟩
  by_cases hr : r = NULL
  · exact .inl hr
  · obtain ⟨b, hb, hfree, hpay, hle⟩ := hinv.live r _ (live_of_call heq hr)
    exact .inr ⟨bs', hinv.sound, b, hb, hfree, hpay, hle⟩

/-- No block is larger than the largest request that does not wrap. -/
theorem Inv.blkSize_le (hs : Inv L s bs) {b : Block} (hb : b ∈ bs) :
    blkSize s.heap.mem (sub32 (b.payload sizeofHeader) sizeofHeader) ≤ maxRequest := by
  have hstop := (hs.heap.tiles.bounds hb).2
  have hhi := hs.heap.heapHi_lt (List.ne_nil_of_mem hb)
  rw [hs.heap.sub32_payload hb, Chain.size_of_mem hs.heap.chain hb]
  simp only [Block.stop, sizeofHeader, maxRequest] at hstop ⊢
  omega

/-- A request above `maxRequest` that is turned down changes nothing. -/
theorem Inv.call_of_sized (hs : Inv L s bs) (hc : s.Valid c) (hlt : maxRequest < c.request)
    (hz : 2 ^ 32 ≤ c.request ∨ s.Full L) : s.call L c = some (s, NULL) := by
  have hfull (hno : c.request < 2 ^ 32) (size : ℕ) : malloc L s.heap size = some (s.heap, NULL) := by
    obtain ⟨hne, hall⟩ := hs.full_iff.mp (hz.resolve_left (by omega))
    exact malloc_of_full hs.heap hne hall size
  cases c with
  | malloc size => simp [call, hfull hc]
  | calloc nmemb size =>
    simp only [Call.request] at hlt hz
    have hn : nmemb ≠ 0 := by rintro rfl; simp at hlt
    have hk : size ≠ 0 := by rintro rfl; simp at hlt
    by_cases hno : nmemb * size < 2 ^ 32
    · simp [call, calloc, hn, hk, safeSizeMul_of_lt hc.1 hk hno, hfull hno]
    · have hover := safeSizeMul_of_overflow hc.1 (Nat.le_of_not_lt hno)
      simp [call, calloc, hn, hk, hover]
  | realloc ptr size =>
    simp only [Call.request] at hlt
    have hmalloc := hfull hc.2 size
    have hzero : size ≠ 0 := by omega
    by_cases hnull : ptr = NULL
    · simp [call, realloc, hnull, hmalloc, hzero]
    · obtain ⟨b, hb, -, rfl⟩ := hs.exists_block hc.1 hnull
      rw [call, realloc_of_null hnull hzero ((hs.blkSize_le hb).trans_lt hlt) hmalloc]
      simp [hzero]
  | free ptr => simp [Call.request] at hlt
  | store addr val => simp [Call.request] at hlt

/-- The longer requests add no states. -/
theorem SizedRun.reachable (hs : SizedRun L s) : Reachable L s := by
  induction hs with
  | boot mem => exact .boot mem
  | @call s s' c r hs hc hz heq ih =>
    rcases Nat.lt_or_ge maxRequest c.request with hlt | hle
    · obtain ⟨bs, hinv⟩ := ih.inv
      rw [hinv.call_of_sized hc hlt (hz.resolve_left (by omega))] at heq
      cases heq
      exact ih
    · exact .call ih (hc.allowed hle) heq

/-- A request that wraps gets a pointer, unless the heap is full. -/
theorem Inv.wrap_of_call (hs : Inv L s bs) (hc : s.Valid c) (hlt : maxRequest < c.request)
    (hsize : c.request < 2 ^ 32) (hfull : ¬ s.Full L) (heq : s.call L c = some (s', r)) :
    r ≠ NULL ∧ s'.heap.heapHi = L.heapHi := by
  rw [hs.full_iff] at hfull
  obtain ⟨h, p, hmalloc, hp, hhi⟩ := malloc_of_wrap hs.heap hlt hsize hfull
  cases c with
  | malloc size =>
    simp only [Call.request] at hmalloc
    rw [call, hmalloc] at heq
    cases heq
    exact ⟨hp, hhi⟩
  | calloc nmemb size =>
    simp only [Call.request] at hlt hsize hmalloc
    have hn : nmemb ≠ 0 := by rintro rfl; simp at hlt
    have hk : size ≠ 0 := by rintro rfl; simp at hlt
    simp only [call, calloc, hn, hk, or_self, if_false, safeSizeMul_of_lt hc.1 hk hsize, hmalloc,
      Option.bind_eq_bind, Option.bind_some, hp, Option.map_some] at heq
    cases heq
    exact ⟨hp, hhi⟩
  | realloc ptr size =>
    simp only [Call.request] at hlt hmalloc
    by_cases hnull : ptr = NULL
    · have hrealloc : realloc L s.heap ptr size = some (h, p) := by
        rw [hnull, ← hmalloc]
        exact if_pos rfl
      rw [call, hrealloc, Option.map_some, if_neg fun h => hp h.1] at heq
      cases heq
      exact ⟨hp, hhi⟩
    · -- the old block is too small as well, so the result is what `malloc` gave
      obtain ⟨b, hb, -, rfl⟩ := hs.exists_block hc.1 hnull
      rw [call, realloc_of_ptr hnull (Nat.ne_zero_of_lt hlt) ((hs.blkSize_le hb).trans_lt hlt)
        hmalloc hp] at heq
      obtain ⟨⟨g, q⟩, hg, hq⟩ := Option.map_eq_some_iff.mp heq
      obtain ⟨g', hfree, hg'⟩ := Option.map_eq_some_iff.mp hg
      cases hg'
      rw [if_neg fun h => hp h.1] at hq
      cases hq
      exact ⟨hp, (heapHi_free hfree).trans hhi⟩
  | free ptr => simp [Call.request] at hlt
  | store addr val => simp [Call.request] at hlt

/-- A request that wraps is not served: a block with that many bytes would end behind the heap. -/
theorem Inv.not_inBlock (hs : Inv L s bs) (hc : s.Valid c) (hz : ¬ s.Sized L c) :
    ¬ s.InBlock L c := by
  rintro ⟨s', r, heq, hr⟩
  simp only [Sized, not_or, Nat.not_le] at hz
  obtain ⟨hnull, hhi⟩ := hs.wrap_of_call hc hz.1 hz.2.1 hz.2.2 heq
  obtain ⟨cs, hcs, b, hb, -, -, hle⟩ := hr.resolve_left hnull
  have hstop := (hcs.tiles.bounds hb).2
  have hlt := L.heapHi_lt
  simp only [Block.stop, maxRequest, sizeofHeader] at hstop hz
  omega

/-- **Exactly the requests of the right size are served**, at every state of every such session. -/
theorem inBlock_iff (hs : SizedRun L s) (hc : s.Valid c) : s.InBlock L c ↔ s.Sized L c := by
  obtain ⟨bs, hinv⟩ := hs.reachable.inv
  constructor
  · intro hin
    by_contra hz
    exact hinv.not_inBlock hc hz hin
  · intro hz
    rcases Nat.lt_or_ge maxRequest c.request with hlt | hle
    · exact ⟨s, NULL, hinv.call_of_sized hc hlt (hz.resolve_left (by omega)), .inl rfl⟩
    · exact hinv.inBlock (hc.allowed hle)

/-- Ten bytes from a fresh heap. -/
theorem inBlock_iff_malloc : (boot fun _ => 0).InBlock smallLayout (.malloc 10) := by
  have hvalid : (boot fun _ => 0).Valid (.malloc 10) := by
    show 10 < 2 ^ 32
    decide
  exact (inBlock_iff (.boot _) hvalid).mpr (.inl (by decide))

/-- The largest size, as the first request, is answered with a block of no bytes. -/
theorem malloc_wraps : ∃ s',
    (boot fun _ => 0).call smallLayout (.malloc (2 ^ 32 - 1)) = some (s', 28) ∧
    blkSize s'.heap.mem (28 - sizeofHeader) = 0 ∧
    ¬ (boot fun _ => 0).InBlock smallLayout (.malloc (2 ^ 32 - 1)) := by
  have h : ((boot fun _ => 0).call smallLayout (.malloc (2 ^ 32 - 1))).map
      (fun r => (r.2, blkSize r.1.heap.mem (28 - sizeofHeader))) = some (28, 0) := by
    decide +kernel
  obtain ⟨⟨s', r⟩, heq, hr⟩ := Option.map_eq_some_iff.mp h
  simp only [Prod.mk.injEq] at hr
  obtain ⟨rfl, hsize⟩ := hr
  have hinv := inv_boot smallLayout fun _ => 0
  have hvalid : (boot fun _ => 0).Valid (.malloc (2 ^ 32 - 1)) := by
    show 2 ^ 32 - 1 < 2 ^ 32
    decide
  refine ⟨s', heq, hsize, hinv.not_inBlock hvalid ?_⟩
  rintro (hle | hle | hfull)
  · exact absurd hle (by decide)
  · exact absurd hle (by decide)
  · exact (hinv.full_iff.mp hfull).1 rfl

end Sizes

/-! ## What becomes of contents -/

/-- **A request was served** at `r`: the heap is sound, the block of `r` is used and has the bytes,
and the used blocks of before are there with their contents, all but those in `gone`. -/
structure Served (L : Layout) (s : Sys) (bs : List Block) (gone : Set Block) (size : ℕ) (s' : Sys)
    (r : ℕ) (bs' : List Block) : Prop where
  sound : Sound L s' bs'
  room : ∃ b ∈ bs', b.free = false ∧ r = b.payload sizeofHeader ∧ size ≤ b.size
  kept : ∀ c ∈ bs, c.free = false → c ∉ gone → c ∈ bs' ∧ Kept s.heap.mem s'.heap.mem c

/-- **`realloc` of the block `b`** fails and changes nothing, or serves the request with the old
contents, and frees `b` exactly when the block is another one. -/
def Reallocates (L : Layout) (s : Sys) (bs : List Block) (b : Block) (size : ℕ) : Prop :=
  ∃ s' r, s.call L (.realloc (b.payload sizeofHeader) size) = some (s', r) ∧
    (r = NULL ∧ s' = s ∨
      r ≠ NULL ∧ ∃ bs', Served L s bs {b} size s' r bs' ∧
        (∀ i < min b.size size, s'.heap.mem (r + i) = s.heap.mem (b.payload sizeofHeader + i)) ∧
        ((∀ c ∈ bs', c.free = false → c.addr ≠ b.addr) ↔ r ≠ b.payload sizeofHeader))

/-- **`calloc`** fails and changes nothing, except that the first request of all sets the heap up,
or serves the request with zeros. -/
def Callocates (L : Layout) (s : Sys) (bs : List Block) (nmemb size : ℕ) : Prop :=
  ∃ s' r, s.call L (.calloc nmemb size) = some (s', r) ∧
    (r = NULL ∧ (s' = s ∨ s.heap.freeList = NULL ∧ s' = ⟨initHeapOnce L s.heap, s.live⟩) ∨
      r ≠ NULL ∧ ∃ bs', Served L s bs ∅ (nmemb * size) s' r bs' ∧
        ∀ i < nmemb * size, s'.heap.mem (r + i) = 0)

section Contracts

variable {L : Layout} {s : Sys} {bs : List Block}

theorem Inv.reallocates (hs : Inv L s bs) {b : Block} (hb : b ∈ bs) (hfree : b.free = false)
    {size : ℕ} (hpos : 0 < size) (hmax : size ≤ maxRequest) : Reallocates L s bs b size := by
  have hnull : b.payload sizeofHeader ≠ NULL := add_sizeofHeader_ne_null b.addr
  by_cases hle : size ≤ b.size
  · -- the block is large enough
    have hcall := realloc_of_le (L := L) (s := s.heap) hnull (Nat.ne_of_gt hpos) (by
      rwa [hs.heap.sub32_payload hb, Chain.size_of_mem hs.heap.chain hb])
    refine ⟨_, b.payload sizeofHeader, by rw [call, hcall]; simp [hnull], .inr ⟨hnull, bs,
      ⟨(hs.regrant hb hfree hle).sound, ⟨b, hb, hfree, rfl, hle⟩, fun c hc _ _ =>
        ⟨hc, fun _ _ => rfl⟩⟩, fun _ _ => rfl, ?_⟩⟩
    exact iff_of_false (fun h => h b hb hfree rfl) (fun h => h rfl)
  · obtain ⟨s', r, bs', heq, hinv, ⟨rfl, rfl⟩ | ⟨a, n, rfl, hn, hab, hused, hkept, hmem⟩⟩ :=
      realloc_move_spec hs hb hfree (Nat.lt_of_not_le hle) hmax
    · exact ⟨s', NULL, heq, .inl ⟨rfl, rfl⟩⟩
    have hnew := ((hused ⟨a, n, false⟩).mpr ⟨.inl rfl, hab⟩).1
    refine ⟨s', _, heq, .inr ⟨add_sizeofHeader_ne_null a, bs',
      ⟨hinv.sound, ⟨⟨a, n, false⟩, hnew, rfl, rfl, hn⟩, fun c hc hcf hcb => ⟨?_, hkept c hc hcf⟩⟩,
      fun i hi => hmem i (by omega), ?_⟩⟩
    · have haddr : c.addr ≠ b.addr := fun h => hcb (hs.heap.tiles.eq_of_addr (by decide) hc hb h)
      exact ((hused c).mpr ⟨.inr ⟨hc, hcf⟩, haddr⟩).1
    · exact iff_of_true (fun c hc hcf => ((hused c).mp ⟨hc, hcf⟩).2)
        fun h => hab (Nat.add_right_cancel h)

theorem Inv.callocates (hs : Inv L s bs) {nmemb size : ℕ} (hmax : nmemb * size ≤ maxRequest) :
    Callocates L s bs nmemb size := by
  by_cases hzero : nmemb = 0 ∨ size = 0
  · refine ⟨s, NULL, ?_, .inl ⟨rfl, .inl rfl⟩⟩
    simp [call, calloc, if_pos hzero, malloc_zero]
  obtain ⟨hn, hk⟩ := not_or.mp hzero
  obtain ⟨s', r, bs', heq, hinv, ⟨rfl, hs'⟩ | ⟨a, n, rfl, hle, hused, hkept, hmem⟩⟩ :=
    calloc_spec hs hn hk hmax
  · refine ⟨s', NULL, heq, .inl ⟨rfl, ?_⟩⟩
    by_cases hnil : bs = []
    · exact .inr ⟨hs.heap.eq_nil_iff.mp hnil, hs'⟩
    · rw [hs.heap.init_eq hnil] at hs'
      exact .inl hs'
  · exact ⟨s', _, heq, .inr ⟨add_sizeofHeader_ne_null a, bs', ⟨hinv.sound,
      ⟨⟨a, n, false⟩, ((hused _).mpr (.inl rfl)).1, rfl, rfl, hle⟩, fun c hc hcf _ =>
        ⟨((hused c).mpr (.inr ⟨hc, hcf⟩)).1, hkept c hc hcf⟩⟩, hmem⟩⟩

/-- **The contracts of `realloc` and `calloc`** at every state of every session. -/
theorem calloc_realloc_contract (hs : SizedRun L s) : ∃ bs, Sound L s bs ∧
    (∀ p k, s.live p = some k → ∃ b ∈ bs, b.free = false ∧ p = b.payload sizeofHeader ∧
      ∀ size, 0 < size → size ≤ maxRequest → Reallocates L s bs b size) ∧
    (∀ nmemb size, nmemb * size ≤ maxRequest → Callocates L s bs nmemb size) ∧
    (∀ nmemb size, nmemb < 2 ^ 32 → size < 2 ^ 32 → 2 ^ 32 ≤ nmemb * size →
      s.call L (.calloc nmemb size) = some (s, NULL)) := by
  obtain ⟨bs, hinv⟩ := hs.reachable.inv
  refine ⟨bs, hinv.sound, fun p k hk => ?_, fun nmemb size => hinv.callocates,
    fun nmemb size hn hk hover => ?_⟩
  · obtain ⟨b, hb, hfree, hpay, -⟩ := hinv.live p k hk
    exact ⟨b, hb, hfree, hpay, fun size => hinv.reallocates hb hfree⟩
  · refine hinv.call_of_sized (c := .calloc nmemb size) ⟨hn, hk⟩ ?_ (.inl hover)
    exact Nat.lt_of_lt_of_le (by decide) hover

/-- The contract of `realloc` for the first payload of a small heap. -/
theorem calloc_realloc_contract_malloc : ∃ s bs b,
    (boot fun _ => 0).call smallLayout (.malloc 10) = some (s, 28) ∧
      28 = b.payload sizeofHeader ∧ Reallocates smallLayout s bs b 100 := by
  have h : ((boot fun _ => 0).call smallLayout (.malloc 10)).map Prod.snd = some 28 := by
    decide +kernel
  obtain ⟨⟨s, r⟩, heq, rfl⟩ := Option.map_eq_some_iff.mp h
  have hvalid : (boot fun _ => 0).Valid (.malloc 10) := by
    show 10 < 2 ^ 32
    decide
  have hsized : (boot fun _ => 0).Sized smallLayout (.malloc 10) := .inl (by decide)
  obtain ⟨bs, -, hrealloc, -⟩ := calloc_realloc_contract (.call (.boot _) hvalid hsized heq)
  obtain ⟨b, -, -, hpay, hb⟩ := hrealloc 28 _ (live_of_call heq (by decide))
  exact ⟨s, bs, b, heq, hpay, hb 100 (by decide) (by decide)⟩

/-- A `calloc` that fails on a heap that is not set up yet leaves it set up: `free_list` points to
`heap_lo`, and the header of the first block is in memory. -/
theorem calloc_sets_up : ∃ s', (boot fun _ => 0).call smallLayout (.calloc 1 4000) =
      some (s', NULL) ∧ s'.heap.freeList ≠ (boot fun _ => 0).heap.freeList ∧
    s'.heap.mem ≠ (boot fun _ => 0).heap.mem := by
  have h : ((boot fun _ => 0).call smallLayout (.calloc 1 4000)).map
      (fun r => (r.2, r.1.heap.freeList, r.1.heap.mem 16)) = some (NULL, 16, 228) := by
    decide +kernel
  obtain ⟨⟨s', r⟩, heq, hr⟩ := Option.map_eq_some_iff.mp h
  simp only [Prod.mk.injEq] at hr
  obtain ⟨rfl, hfl, hmem⟩ := hr
  refine ⟨s', heq, ?_, fun hsame => ?_⟩
  · rw [hfl]
    decide
  · rw [hsame] at hmem
    exact absurd hmem (by decide)

end Contracts

end Sys

end KwsSoc.Heap
