import KwsSoc.Heap.Chain

/-! # The heap over whole sessions

A program calls `malloc`, `calloc`, `realloc` and `free` in any order, hands only live pointers to
the last two, and writes what it likes into its live payloads in between. `HeapInv` is what every
function of the allocator keeps, with one specification for each (`malloc_spec`, `free_spec`);
`Sys.Inv` adds that the used blocks are those of the live pointers. `heap_sound` reads off what
this means for the block list in memory after every call. -/

namespace KwsSoc.Heap

open ByteMemory BlockList

/-! ## Alignment and bounds -/

theorem alignUp_eq {v : ℕ} (hv : v + (ALIGNMENT - 1) < 2 ^ 32) :
    alignUp v ALIGNMENT = v + (ALIGNMENT - 1) - (v + (ALIGNMENT - 1)) % ALIGNMENT := by
  rw [alignUp, u32_eq hv, alignDown]

/-- Rounding up to the alignment. -/
theorem alignUp_eq_div {v : ℕ} (hv : v + (ALIGNMENT - 1) < 2 ^ 32) :
    alignUp v ALIGNMENT = (v + 7) / 8 * 8 := by
  rw [alignUp_eq hv]
  simp only [ALIGNMENT]
  omega

theorem le_alignUp {v : ℕ} (hv : v + (ALIGNMENT - 1) < 2 ^ 32) : v ≤ alignUp v ALIGNMENT := by
  rw [alignUp_eq hv]
  simp only [ALIGNMENT]
  omega

/-- A payload is never at address 0. -/
theorem add_sizeofHeader_ne_null (a : ℕ) : a + sizeofHeader ≠ NULL := by
  simp only [NULL, sizeofHeader]
  omega

namespace Layout

variable (L : Layout)

theorem heapHi_lt : L.heapHi < 2 ^ 32 := by
  have := L.stackTop_lt
  unfold heapHi alignDown
  split <;> omega

/-- Rounding up the end of `.bss` does not wrap. -/
theorem ebss_add_lt : L.ebss + (ALIGNMENT - 1) < 2 ^ 32 := by
  have hroom := L.room
  have hlt := L.heapHi_lt
  rw [heapHi] at hlt
  simp only [alignDown, ALIGNMENT, sizeofHeader] at hroom hlt ⊢
  omega

theorem heapLo_add_lt : L.heapLo + sizeofHeader < L.heapHi := by
  rw [heapHi, heapLo, alignUp_eq L.ebss_add_lt]
  exact L.room

/-- The heap does not begin at address 0: `.bss` lies below it. -/
theorem heapLo_pos : 0 < L.heapLo := by
  have hbss := L.inBss
  have hle := le_alignUp L.ebss_add_lt
  rw [heapLo]
  omega

/-- The block that a fresh heap consists of. -/
def initial : Block := ⟨L.heapLo, L.heapHi - L.heapLo - sizeofHeader, true⟩

end Layout

/-! ## What every function keeps -/

/-- **The heap invariant**: memory holds the list `bs` from `free_list` on, which tiles the heap
and has no two free neighbours. Before the first allocation the list is empty. -/
structure HeapInv (L : Layout) (s : State) (bs : List Block) : Prop where
  chain : Chain s.mem bs
  head : headAddr bs = s.freeList
  tiles : Tiles sizeofHeader s.heapLo s.heapHi bs
  apart : Apart bs
  bounds : bs ≠ [] → s.heapLo = L.heapLo ∧ s.heapHi = L.heapHi

namespace HeapInv

variable {L : Layout} {s : State} {bs : List Block}

theorem heapLo_pos (h : HeapInv L s bs) (hne : bs ≠ []) : 0 < s.heapLo := by
  rw [(h.bounds hne).1]
  exact L.heapLo_pos

theorem heapHi_lt (h : HeapInv L s bs) (hne : bs ≠ []) : s.heapHi < 2 ^ 32 := by
  rw [(h.bounds hne).2]
  exact L.heapHi_lt

/-- The list is empty as long as `free_list` is `NULL`. -/
theorem eq_nil_iff (h : HeapInv L s bs) : bs = [] ↔ s.freeList = NULL := by
  rw [← h.head]
  cases bs with
  | nil => simp [headAddr]
  | cons b bs =>
    have haddr : b.addr = s.heapLo := h.tiles.1
    have hpos := h.heapLo_pos (List.cons_ne_nil b bs)
    simp only [headAddr, NULL, reduceCtorEq, false_iff]
    omega

/-- The loops end within their bound. -/
theorem length_lt (h : HeapInv L s bs) : bs.length < loopBound := by
  by_cases hne : bs = []
  · rw [hne]
    decide
  · have hlen := h.tiles.length_le
    have hhi := h.heapHi_lt hne
    simp only [sizeofHeader, loopBound] at hlen ⊢
    omega

/-- The header that `realloc` and `free` look up is the block's. -/
theorem sub32_payload (h : HeapInv L s bs) {b : Block} (hb : b ∈ bs) :
    sub32 (b.payload sizeofHeader) sizeofHeader = b.addr := by
  have hbounds := h.tiles.bounds hb
  have hhi := h.heapHi_lt (List.ne_nil_of_mem hb)
  simp only [Block.stop] at hbounds
  rw [Block.payload, sub32_eq (Nat.le_add_left _ _) (by omega)]
  omega

/-- The invariant survives writes that leave all headers alone. -/
theorem write (h : HeapInv L s bs) {m : Mem} (hm : Set.EqOn m s.mem (headers bs)) :
    HeapInv L { s with mem := m } bs :=
  ⟨h.chain.congr fun b hb _ hx => hm ⟨b, hb, hx⟩, h.head, h.tiles, h.apart, h.bounds⟩

/-- Writes into the payload of a block leave all headers alone. -/
theorem write_payload (h : HeapInv L s bs) {m : Mem} {b : Block} (hb : b ∈ bs)
    (hm : Set.EqOn m s.mem (Set.Ico (b.payload sizeofHeader) (b.stop sizeofHeader))ᶜ) :
    HeapInv L { s with mem := m } bs :=
  h.write (hm.mono (Set.subset_compl_comm.mp (payload_subset_headers_compl h.tiles hb)))

end HeapInv

/-- The state at power-on: any memory, and the static variables at their initial values. -/
def State.boot (mem : Mem) : State := ⟨mem, NULL, 0, 0⟩

theorem heapInv_boot (L : Layout) (mem : Mem) : HeapInv L (State.boot mem) [] :=
  ⟨trivial, rfl, rfl, List.IsChain.nil, fun h => absurd rfl h⟩

/-- The payload of a block is what it was. -/
def Kept (m m' : Mem) (b : Block) : Prop :=
  Set.EqOn m' m (Set.Ico (b.payload sizeofHeader) (b.stop sizeofHeader))

section Kept

variable {m m' m'' : Mem} {b c : Block} {bs : List Block} {lo hi : ℕ}

theorem Kept.trans (h : Kept m m' b) (h' : Kept m' m'' b) : Kept m m'' b :=
  fun _ hx => (h' hx).trans (h hx)

theorem Kept.byte (h : Kept m m' b) {i : ℕ} (hi : i < b.size) :
    m' (b.payload sizeofHeader + i) = m (b.payload sizeofHeader + i) := by
  refine h ?_
  simp only [Set.mem_Ico, Block.payload, Block.stop]
  omega

/-- Writes within one block leave the payloads of the others. -/
theorem kept_of_eqOn (ht : Tiles sizeofHeader lo hi bs) (hb : b ∈ bs) (hc : c ∈ bs) (hbc : c ≠ b)
    (hm : Set.EqOn m' m (Set.Ico b.addr (b.stop sizeofHeader))ᶜ) : Kept m m' c := by
  refine hm.mono fun x hx => ?_
  simp only [Set.mem_Ico, Set.mem_compl_iff, Block.payload, Block.stop] at hx ⊢
  rcases ht.eq_or_apart hb hc with heq | hlt | hlt
  · exact absurd heq.symm hbc
  · simp only [Block.stop] at hlt
    omega
  · simp only [Block.stop] at hlt
    omega

/-- Writes within one payload leave the others. -/
theorem kept_of_payload (ht : Tiles sizeofHeader lo hi bs) (hb : b ∈ bs) (hc : c ∈ bs) (hbc : c ≠ b)
    (hm : Set.EqOn m' m (Set.Ico (b.payload sizeofHeader) (b.stop sizeofHeader))ᶜ) :
    Kept m m' c := by
  have hsub : Set.Ico (b.payload sizeofHeader) (b.stop sizeofHeader) ⊆
      Set.Ico b.addr (b.stop sizeofHeader) :=
    Set.Ico_subset_Ico_left (Nat.le_add_right b.addr _)
  exact kept_of_eqOn ht hb hc hbc (hm.mono (Set.compl_subset_compl.mpr hsub))

end Kept

/-! ## One specification for each function -/

section Specs

variable {L : Layout} {s : State} {bs : List Block}

/-- `init_heap_once` leaves a heap with blocks alone, and makes an empty one a single free
block. -/
theorem init_spec (h : HeapInv L s bs) :
    ∃ bs', HeapInv L (initHeapOnce L s) bs' ∧ bs' ≠ [] ∧
      ∀ c, c ∈ bs' ∧ c.free = false ↔ c ∈ bs ∧ c.free = false := by
  by_cases hnil : bs = []
  · have hfl : s.freeList = NULL := h.eq_nil_iff.mp hnil
    have hroom := L.heapLo_add_lt
    have hhi := L.heapHi_lt
    -- the size does not wrap: there is room for a header
    have hsize : sub32 (sub32 L.heapHi L.heapLo) sizeofHeader = L.initial.size := by
      rw [sub32_eq (by omega) hhi, sub32_eq (by omega) (by omega)]
      rfl
    have hinit : initHeapOnce L s = ⟨setHeader s.mem L.heapLo L.initial.size NULL 1, L.heapLo,
        L.heapLo, L.heapHi⟩ := by
      have hguard : ¬ L.heapHi ≤ u32 (L.heapLo + sizeofHeader) := by
        rw [u32_eq (by omega)]
        omega
      simp only [initHeapOnce, hfl, ne_eq, not_true_eq_false, if_false, if_neg hguard, hsize]
      rfl
    have hstored : Stored (setHeader s.mem L.heapLo L.initial.size NULL 1) NULL L.initial :=
      stored_setHeader (b := L.initial) (by simp only [Layout.initial]; omega) (by decide)
    have hstop : L.initial.stop sizeofHeader = L.heapHi := by
      simp only [Layout.initial, Block.stop]
      omega
    refine ⟨[L.initial], ?_, List.cons_ne_nil _ _, fun c => ?_⟩
    · rw [hinit]
      exact ⟨⟨hstored, trivial⟩, rfl, ⟨rfl, hstop⟩, List.isChain_singleton _, fun _ => ⟨rfl, rfl⟩⟩
    · subst hnil
      simp only [List.mem_singleton, List.not_mem_nil, false_and, iff_false, not_and]
      rintro rfl
      simp [Layout.initial]
  · have hfl : s.freeList ≠ NULL := fun hfl => hnil (h.eq_nil_iff.mpr hfl)
    refine ⟨bs, ?_, hnil, fun c => Iff.rfl⟩
    rwa [initHeapOnce, if_pos hfl]

/-- The largest request that does not wrap when it is rounded up. -/
def maxRequest : ℕ := 2 ^ 32 - 8

theorem malloc_zero : malloc L s 0 = some (s, NULL) := rfl

/-- `malloc` of a size other than 0, on a heap that is set up. -/
theorem malloc_eq {size : ℕ} (hsize : size ≠ 0) (hfl : (initHeapOnce L s).freeList ≠ NULL) :
    malloc L s size = (mallocLoop (alignUp size ALIGNMENT) loopBound (initHeapOnce L s).mem
      (initHeapOnce L s).freeList).map fun r => ({ initHeapOnce L s with mem := r.1 }, r.2) := by
  simp only [malloc, if_neg hsize, if_neg hfl]

/-- **The two ways `malloc` ends**, whatever the size: no free block holds the rounded request, and
the heap is as `init_heap_once` left it; or one does, and only that block is written to. -/
theorem malloc_cases (h : HeapInv L s bs) {size : ℕ} (hpos : size ≠ 0) :
    ∃ is, HeapInv L (initHeapOnce L s) is ∧ is ≠ [] ∧
      (∀ c, c ∈ is ∧ c.free = false ↔ c ∈ bs ∧ c.free = false) ∧
      ((malloc L s size = some (initHeapOnce L s, NULL) ∧
          ∀ b ∈ is, b.free = true → b.size < alignUp size ALIGNMENT) ∨
        ∃ s' bs', ∃ b ∈ is, ∃ n, b.free = true ∧ alignUp size ALIGNMENT ≤ n ∧
          malloc L s size = some (s', b.payload sizeofHeader) ∧ HeapInv L s' bs' ∧
          (∀ c, c ∈ bs' ∧ c.free = false ↔ c = ⟨b.addr, n, false⟩ ∨ c ∈ is ∧ c.free = false) ∧
          Set.EqOn s'.mem (initHeapOnce L s).mem (Set.Ico b.addr (b.stop sizeofHeader))ᶜ) := by
  obtain ⟨is, hinit, hne, hused⟩ := init_spec h
  have hfl : (initHeapOnce L s).freeList ≠ NULL := fun hfl => hne (hinit.eq_nil_iff.mpr hfl)
  have hlo := hinit.heapLo_pos hne
  have hhi := hinit.heapHi_lt hne
  refine ⟨is, hinit, hne, hused, ?_⟩
  rw [malloc_eq hpos hfl, ← hinit.head]
  -- the loop does what `firstFit` does on the list
  cases hff : firstFit sizeofHeader (sizeofHeader + ALIGNMENT) (alignUp size ALIGNMENT) is with
  | none =>
    rw [mallocLoop_of_none hinit.chain hinit.tiles hlo hinit.length_lt hff]
    exact .inl ⟨rfl, firstFit_eq_none.mp hff⟩
  | some r =>
    obtain ⟨a, bs'⟩ := r
    obtain ⟨m', hloop, hchain, hhead, b', hb', -, haddr, heq⟩ :=
      mallocLoop_of_some hinit.chain hinit.tiles hlo hhi hinit.length_lt hff
    obtain ⟨b, hb, hfree, rfl, n, hn, hused'⟩ := used_firstFit hff
    obtain rfl := hinit.tiles.eq_of_addr (by decide) hb hb' haddr.symm
    rw [hloop]
    refine .inr ⟨_, bs', b, hb, n, hfree, hn, rfl, ⟨hchain, hhead.trans hinit.head, ?_, ?_,
      fun _ => hinit.bounds hne⟩, hused', heq⟩
    · exact tiles_firstFit (Nat.le_add_right _ _) hinit.tiles hff
    · exact (apart_firstFit hinit.apart hff).1

/-- A heap that is set up stays as it is. -/
theorem HeapInv.init_eq (h : HeapInv L s bs) (hne : bs ≠ []) : initHeapOnce L s = s :=
  if_pos fun hfl => hne (h.eq_nil_iff.mpr hfl)

/-- `init_heap_once` writes into no payload. -/
theorem HeapInv.kept_init (h : HeapInv L s bs) {c : Block} (hc : c ∈ bs) :
    Kept s.mem (initHeapOnce L s).mem c := by
  rw [h.init_eq (List.ne_nil_of_mem hc)]
  exact fun _ _ => rfl

/-- **`malloc`** returns: `NULL`, and then no free block holds the rounded request; or the payload
of a block that was free and is now used, large enough for the request. The payloads in use are
left alone. -/
theorem malloc_spec (h : HeapInv L s bs) {size : ℕ} (hpos : size ≠ 0) (hmax : size ≤ maxRequest) :
    ∃ s' p bs', malloc L s size = some (s', p) ∧ HeapInv L s' bs' ∧ bs' ≠ [] ∧
      (∀ c ∈ bs, c.free = false → Kept s.mem s'.mem c) ∧
      ((p = NULL ∧ s' = initHeapOnce L s ∧
          (∀ c, c ∈ bs' ∧ c.free = false ↔ c ∈ bs ∧ c.free = false) ∧
          ∀ b ∈ bs', b.free = true → b.size < alignUp size ALIGNMENT) ∨
        ∃ a n, p = a + sizeofHeader ∧ size ≤ n ∧ (∀ c ∈ bs, c.free = false → c.addr ≠ a) ∧
          ∀ c, c ∈ bs' ∧ c.free = false ↔ c = ⟨a, n, false⟩ ∨ c ∈ bs ∧ c.free = false) := by
  have hle : size ≤ alignUp size ALIGNMENT :=
    le_alignUp (by simp only [maxRequest, ALIGNMENT] at hmax ⊢; omega)
  obtain ⟨is, hinit, hne, hused, ⟨heq, hfull⟩ |
    ⟨s', bs', b, hb, n, hfree, hn, heq, hs', hused', hm⟩⟩ := malloc_cases h hpos
  · exact ⟨_, _, is, heq, hinit, hne, fun c hc _ => h.kept_init hc, .inl ⟨rfl, rfl, hused, hfull⟩⟩
  · -- the block that was taken was free
    have hother (c : Block) (hc : c ∈ bs) (hcf : c.free = false) : c ∈ is ∧ c.addr ≠ b.addr := by
      have hc' := (hused c).mpr ⟨hc, hcf⟩
      refine ⟨hc'.1, fun haddr => ?_⟩
      rw [hinit.tiles.eq_of_addr (by decide) hc'.1 hb haddr, hfree] at hcf
      cases hcf
    refine ⟨s', _, bs', heq, hs', ?_, fun c hc hcf => ?_, .inr ⟨b.addr, n, rfl, hle.trans hn,
      fun c hc hcf => (hother c hc hcf).2, fun c => ?_⟩⟩
    · rintro rfl
      exact absurd ((hused' ⟨b.addr, n, false⟩).mpr (.inl rfl)).1 (List.not_mem_nil)
    · obtain ⟨hcis, hne⟩ := hother c hc hcf
      exact (h.kept_init hc).trans
        (kept_of_eqOn hinit.tiles hb hcis (fun hcb => hne (by rw [hcb])) hm)
    · rw [hused', hused]

/-- **`free`** returns, takes one block from the used ones, and writes into no payload. -/
theorem free_spec (h : HeapInv L s bs) {b : Block} (hb : b ∈ bs) :
    ∃ s' bs', free s (b.payload sizeofHeader) = some s' ∧ HeapInv L s' bs' ∧ bs' ≠ [] ∧
      (∀ c ∈ bs, Kept s.mem s'.mem c) ∧
      ∀ c, c ∈ bs' ∧ c.free = false ↔ c ∈ bs ∧ c.free = false ∧ c.addr ≠ b.addr := by
  have hne : bs ≠ [] := List.ne_nil_of_mem hb
  have hlo := h.heapLo_pos hne
  have hhi := h.heapHi_lt hne
  have hbounds := h.tiles.bounds hb
  simp only [Block.stop] at hbounds
  have hptr : ¬ b.payload sizeofHeader = NULL := add_sizeofHeader_ne_null b.addr
  -- the block is marked free, and then neighbours are merged
  have hchain := chain_setFree h.chain h.tiles hb
  have htiles := tiles_release b.addr h.tiles
  have hlen : (release b.addr bs).length < loopBound := by
    rw [release, List.length_map]
    exact h.length_lt
  obtain ⟨m', hloop, hchain', heq⟩ := coalesceLoop_eq hchain htiles hlo hhi hlen
  rw [headAddr_release, h.head] at hloop
  rw [headers_release] at heq
  have hm : Set.EqOn m' s.mem (headers bs)ᶜ := fun x hx =>
    (heq hx).trans (setFree_eqOn s.mem b.addr 1 fun hxb => hx ⟨b, hb, hxb⟩)
  refine ⟨{ s with mem := m' }, coalesce sizeofHeader (release b.addr bs), ?_,
    ⟨hchain', ?_, tiles_coalesce htiles, apart_coalesce _, fun _ => h.bounds hne⟩, ?_,
    fun c hc => hm.mono (payload_subset_headers_compl h.tiles hc), fun c => ?_⟩
  · rw [free, if_neg hptr, h.sub32_payload hb, coalesceAll]
    simp only [hloop, Option.map_some]
  · rw [headAddr_coalesce, headAddr_release, h.head]
  · intro hnil
    have htc := tiles_coalesce htiles
    rw [hnil] at htc
    have heq : s.heapLo = s.heapHi := htc
    simp only [sizeofHeader] at hbounds
    omega
  · rw [used_coalesce, used_release]

end Specs

/-! ## `safe_size_mul` -/

/-- The loop adds up the product, or stops when it no longer fits. -/
theorem mulLoop_eq {a b acc : ℕ} (hacc : acc < 2 ^ 32) (ha : a < 2 ^ 32) :
    mulLoop a b acc = if acc + a * b < 2 ^ 32 then some (acc + a * b) else none := by
  induction b generalizing acc with
  | zero => rw [mulLoop, Nat.mul_zero, Nat.add_zero, if_pos hacc]
  | succ b ih =>
    rw [mulLoop, Nat.mul_succ]
    by_cases hfit : acc > 2 ^ 32 - 1 - a
    · rw [if_pos hfit, if_neg (by omega)]
    · rw [if_neg hfit, u32_eq (by omega), ih (by omega)]
      have hsum : acc + a + a * b = acc + (a * b + a) := by omega
      rw [hsum]

/-- A product that is a possible request passes the overflow check. -/
theorem safeSizeMul_eq {a b : ℕ} (ha : a ≠ 0) (hb : b ≠ 0) (hmax : a * b ≤ maxRequest) :
    safeSizeMul a b = some (a * b) := by
  have hle : a ≤ a * b := Nat.le_mul_of_pos_right a (Nat.pos_of_ne_zero hb)
  simp only [maxRequest] at hmax
  rw [safeSizeMul, if_neg (not_or.mpr ⟨ha, hb⟩), mulLoop_eq (by decide) (by omega), if_pos (by omega),
    Nat.zero_add]

section Equations

variable {L : Layout} {s h : State} {nmemb size ptr p : ℕ}

/-- `calloc` hands on a `NULL`. -/
theorem calloc_of_null (hn : nmemb ≠ 0) (hk : size ≠ 0) (hmax : nmemb * size ≤ maxRequest)
    (heq : malloc L s (nmemb * size) = some (h, NULL)) :
    calloc L s nmemb size = some (h, NULL) := by
  simp [calloc, hn, hk, safeSizeMul_eq hn hk hmax, heq]

/-- `calloc` clears what it got. -/
theorem calloc_of_ptr (hn : nmemb ≠ 0) (hk : size ≠ 0) (hmax : nmemb * size ≤ maxRequest)
    (heq : malloc L s (nmemb * size) = some (h, p)) (hp : p ≠ NULL) :
    calloc L s nmemb size =
      some ({ h with mem := h.mem.update p (fun _ _ => 0) (nmemb * size) }, p) := by
  simp [calloc, hn, hk, safeSizeMul_eq hn hk hmax, heq, hp]

/-- `realloc` in place. -/
theorem realloc_of_le (hptr : ptr ≠ NULL) (hsize : size ≠ 0)
    (hle : size ≤ blkSize s.mem (sub32 ptr sizeofHeader)) :
    realloc L s ptr size = some (s, ptr) := by simp [realloc, hptr, hsize, hle]

/-- `realloc` without room for the copy. -/
theorem realloc_of_null (hptr : ptr ≠ NULL) (hsize : size ≠ 0)
    (hlt : blkSize s.mem (sub32 ptr sizeofHeader) < size)
    (heq : malloc L s size = some (h, NULL)) : realloc L s ptr size = some (h, NULL) := by
  simp [realloc, hptr, hsize, Nat.not_le.mpr hlt, heq]

/-- `realloc` by allocating, copying and freeing. -/
theorem realloc_of_ptr (hptr : ptr ≠ NULL) (hsize : size ≠ 0)
    (hlt : blkSize s.mem (sub32 ptr sizeofHeader) < size)
    (heq : malloc L s size = some (h, p)) (hp : p ≠ NULL) :
    let copyN := blkSize h.mem (sub32 ptr sizeofHeader)
    realloc L s ptr size =
      (free { h with mem := h.mem.update p (fun m i => m (ptr + i)) copyN } ptr).map
        fun s => (s, p) := by
  intro copyN
  simp only [realloc, hptr, hsize, Nat.not_le.mpr hlt, heq, hp, if_false, Option.bind_eq_bind,
    Option.bind_some]
  cases free { h with mem := h.mem.update p (fun m i => m (ptr + i)) copyN } ptr <;> rfl

end Equations

/-! ## Sessions -/

/-- The allocator and the program's view of it: the requested size of each live pointer. -/
structure Sys where
  heap : State
  live : ℕ → Option ℕ

/-- What the program does: a call, or a byte stored in between. -/
inductive Call
  | malloc (size : ℕ)
  | calloc (nmemb size : ℕ)
  | realloc (ptr size : ℕ)
  | free (ptr : ℕ)
  | store (addr : ℕ) (val : BitVec 8)

namespace Sys

/-- `NULL` or a live pointer. -/
def Owns (s : Sys) (ptr : ℕ) : Prop := ptr = NULL ∨ ∃ n, s.live ptr = some n

/-- The rules for the program: requests of at most `maxRequest` bytes, only live pointers (or
`NULL`) to `realloc` and `free`, and stores into live payloads only. -/
def Allowed (s : Sys) : Call → Prop
  | .malloc size => size ≤ maxRequest
  | .calloc nmemb size => nmemb * size ≤ maxRequest
  | .realloc ptr size => s.Owns ptr ∧ size ≤ maxRequest
  | .free ptr => s.Owns ptr
  | .store addr _ => ∃ p n, s.live p = some n ∧ p ≤ addr ∧ addr < p + n

/-- A returned pointer is live; `NULL` is not. -/
def grant (live : ℕ → Option ℕ) (p n : ℕ) : ℕ → Option ℕ :=
  if p = NULL then live else Function.update live p (some n)

/-- A freed pointer is dead. -/
def drop (live : ℕ → Option ℕ) (p : ℕ) : ℕ → Option ℕ := Function.update live p none

/-- One call, with the value it returns. -/
def call (L : Layout) (s : Sys) : Call → Option (Sys × ℕ)
  | .malloc size => (malloc L s.heap size).map fun r => (⟨r.1, grant s.live r.2 size⟩, r.2)
  | .calloc nmemb size => (calloc L s.heap nmemb size).map fun r =>
      (⟨r.1, grant s.live r.2 (nmemb * size)⟩, r.2)
  | .realloc ptr size => (realloc L s.heap ptr size).map fun r =>
      -- a failed `realloc` leaves the old payload live, unless it was a `free`
      if r.2 = NULL ∧ size ≠ 0 then (⟨r.1, s.live⟩, r.2)
      else (⟨r.1, grant (drop s.live ptr) r.2 size⟩, r.2)
  | .free ptr => (free s.heap ptr).map fun h => (⟨h, drop s.live ptr⟩, NULL)
  | .store addr val => some (⟨{ s.heap with mem := s.heap.mem.set addr val }, s.live⟩, NULL)

/-- Power-on: nothing is live. -/
def boot (mem : Mem) : Sys := ⟨State.boot mem, fun _ => none⟩

/-- The states that sessions reach. -/
inductive Reachable (L : Layout) : Sys → Prop
  | boot (mem : Mem) : Reachable L (boot mem)
  | call {s s' : Sys} {c : Call} {r : ℕ} (hs : Reachable L s) (hc : s.Allowed c)
      (heq : s.call L c = some (s', r)) : Reachable L s'

/-- **The session invariant**: the heap invariant, and the used blocks are those of the live
pointers, each with room for what was requested. -/
structure Inv (L : Layout) (s : Sys) (bs : List Block) : Prop where
  heap : HeapInv L s.heap bs
  used : ∀ b ∈ bs, b.free = false → ∃ n, s.live (b.payload sizeofHeader) = some n
  live : ∀ p n, s.live p = some n →
    ∃ b ∈ bs, b.free = false ∧ p = b.payload sizeofHeader ∧ n ≤ b.size

/-! ### The live pointers -/

theorem grant_of_ne {live : ℕ → Option ℕ} {p : ℕ} (hp : p ≠ NULL) (n : ℕ) :
    grant live p n = Function.update live p (some n) := if_neg hp

@[simp] theorem grant_null (live : ℕ → Option ℕ) (n : ℕ) : grant live NULL n = live := if_pos rfl

namespace Inv

variable {L : Layout} {s : Sys} {bs bs' : List Block} {h : State}

/-- The block of a live pointer. -/
theorem exists_block (hs : Inv L s bs) {p : ℕ} (hp : s.Owns p) (hnull : p ≠ NULL) :
    ∃ b ∈ bs, b.free = false ∧ p = b.payload sizeofHeader := by
  rcases hp with hp | ⟨n, hn⟩
  · exact absurd hp hnull
  · obtain ⟨b, hb, hfree, hpay, -⟩ := hs.live p n hn
    exact ⟨b, hb, hfree, hpay⟩

/-- `NULL` is not live. -/
theorem live_null (hs : Inv L s bs) : s.live NULL = none := by
  cases hn : s.live NULL with
  | none => rfl
  | some n =>
    obtain ⟨b, -, -, hpay, -⟩ := hs.live NULL n hn
    exact absurd hpay.symm (add_sizeofHeader_ne_null b.addr)

theorem drop_null (hs : Inv L s bs) : drop s.live NULL = s.live := by
  funext p
  by_cases hp : p = NULL
  · rw [hp, drop, Function.update_self, hs.live_null]
  · rw [drop, Function.update_of_ne hp]

/-- The used blocks are what they were. -/
theorem keep (hs : Inv L s bs) (hh : HeapInv L h bs')
    (hused : ∀ c, c ∈ bs' ∧ c.free = false ↔ c ∈ bs ∧ c.free = false) :
    Inv L ⟨h, s.live⟩ bs' := by
  refine ⟨hh, fun b hb hfree => ?_, fun p n hn => ?_⟩
  · exact hs.used b ((hused b).mp ⟨hb, hfree⟩).1 hfree
  · obtain ⟨b, hb, hfree, hpay, hle⟩ := hs.live p n hn
    exact ⟨b, ((hused b).mpr ⟨hb, hfree⟩).1, hfree, hpay, hle⟩

/-- A block is used that was not, and its payload is granted. -/
theorem alloc (hs : Inv L s bs) (hh : HeapInv L h bs') {a n size : ℕ} (hsize : size ≤ n)
    (hfresh : ∀ c ∈ bs, c.free = false → c.addr ≠ a)
    (hused : ∀ c, c ∈ bs' ∧ c.free = false ↔ c = ⟨a, n, false⟩ ∨ c ∈ bs ∧ c.free = false) :
    Inv L ⟨h, grant s.live (a + sizeofHeader) size⟩ bs' := by
  rw [grant_of_ne (add_sizeofHeader_ne_null a)]
  refine ⟨hh, fun b hb hfree => ?_, fun p k hk => ?_⟩
  · rcases (hused b).mp ⟨hb, hfree⟩ with rfl | ⟨hb', -⟩
    · exact ⟨size, Function.update_self _ _ _⟩
    · have hne : b.payload sizeofHeader ≠ a + sizeofHeader := fun heq =>
        hfresh b hb' hfree (Nat.add_right_cancel heq)
      obtain ⟨k, hk⟩ := hs.used b hb' hfree
      exact ⟨k, by dsimp only; rw [Function.update_of_ne hne, hk]⟩
  · by_cases hp : p = a + sizeofHeader
    · subst hp
      dsimp only at hk
      rw [Function.update_self] at hk
      cases hk
      exact ⟨⟨a, n, false⟩, ((hused _).mpr (.inl rfl)).1, rfl, rfl, hsize⟩
    · dsimp only at hk
      rw [Function.update_of_ne hp] at hk
      obtain ⟨b, hb, hfree, hpay, hle⟩ := hs.live p k hk
      exact ⟨b, ((hused b).mpr (.inr ⟨hb, hfree⟩)).1, hfree, hpay, hle⟩

/-- A used block is freed, and its pointer dropped. -/
theorem dealloc (hs : Inv L s bs) (hh : HeapInv L h bs') {a : ℕ}
    (hused : ∀ c, c ∈ bs' ∧ c.free = false ↔ c ∈ bs ∧ c.free = false ∧ c.addr ≠ a) :
    Inv L ⟨h, drop s.live (a + sizeofHeader)⟩ bs' := by
  refine ⟨hh, fun b hb hfree => ?_, fun p n hn => ?_⟩
  · obtain ⟨hb', -, hne⟩ := (hused b).mp ⟨hb, hfree⟩
    obtain ⟨n, hn⟩ := hs.used b hb' hfree
    have hpne : b.payload sizeofHeader ≠ a + sizeofHeader := fun heq =>
      hne (Nat.add_right_cancel heq)
    exact ⟨n, by dsimp only; rw [drop, Function.update_of_ne hpne, hn]⟩
  · dsimp only [drop] at hn
    by_cases hp : p = a + sizeofHeader
    · rw [hp, Function.update_self] at hn
      cases hn
    · rw [Function.update_of_ne hp] at hn
      obtain ⟨b, hb, hfree, hpay, hle⟩ := hs.live p n hn
      have hne : b.addr ≠ a := by
        rintro rfl
        exact hp hpay
      exact ⟨b, ((hused b).mpr ⟨hb, hfree, hne⟩).1, hfree, hpay, hle⟩

/-- A live payload is requested anew, within its block. -/
theorem regrant (hs : Inv L s bs) {b : Block} (hb : b ∈ bs) (hfree : b.free = false) {size : ℕ}
    (hsize : size ≤ b.size) :
    Inv L ⟨s.heap, grant (drop s.live (b.payload sizeofHeader)) (b.payload sizeofHeader) size⟩
      bs := by
  have hnull : b.payload sizeofHeader ≠ NULL := add_sizeofHeader_ne_null b.addr
  rw [grant_of_ne hnull, drop, Function.update_idem]
  refine ⟨hs.heap, fun c hc hcf => ?_, fun p n hn => ?_⟩
  · dsimp only
    by_cases hp : c.payload sizeofHeader = b.payload sizeofHeader
    · exact ⟨size, by rw [hp, Function.update_self]⟩
    · rw [Function.update_of_ne hp]
      exact hs.used c hc hcf
  · dsimp only at hn
    by_cases hp : p = b.payload sizeofHeader
    · rw [hp, Function.update_self] at hn
      cases hn
      exact ⟨b, hb, hfree, hp, hsize⟩
    · rw [Function.update_of_ne hp] at hn
      exact hs.live p n hn

/-- Stores into the payload of a block keep the invariant. -/
theorem store (hs : Inv L s bs) {b : Block} (hb : b ∈ bs) {m : Mem}
    (hm : Set.EqOn m s.heap.mem (Set.Ico (b.payload sizeofHeader) (b.stop sizeofHeader))ᶜ) :
    Inv L ⟨{ s.heap with mem := m }, s.live⟩ bs :=
  ⟨hs.heap.write_payload hb hm, hs.used, hs.live⟩

end Inv

/-! ### One call -/

section Calls

variable {L : Layout} {s : Sys} {bs : List Block}

/-- **What a call does**: it returns, and the invariant holds again. -/
def Keeps (L : Layout) (s : Sys) (c : Call) : Prop :=
  ∃ s' r bs', s.call L c = some (s', r) ∧ Inv L s' bs'

theorem keeps_malloc (hs : Inv L s bs) {size : ℕ} (hmax : size ≤ maxRequest) :
    Keeps L s (.malloc size) := by
  by_cases hsize : size = 0
  · subst hsize
    refine ⟨s, NULL, bs, ?_, hs⟩
    simp [call, malloc_zero]
  · obtain ⟨h, p, bs', heq, hh, -, -, ⟨rfl, -, hused, -⟩ | ⟨a, n, rfl, hle, hfresh, hused⟩⟩ :=
      malloc_spec hs.heap hsize hmax
    · exact ⟨_, _, bs', by rw [call, heq]; rfl, hs.keep hh hused⟩
    · exact ⟨_, _, bs', by rw [call, heq]; rfl, hs.alloc hh hle hfresh hused⟩

/-- **A `calloc` of some bytes**: `NULL` and a heap that is set up and otherwise as it was, or a
new block that is zero where it was asked for. -/
theorem calloc_spec (hs : Inv L s bs) {nmemb size : ℕ} (hn : nmemb ≠ 0) (hk : size ≠ 0)
    (hmax : nmemb * size ≤ maxRequest) :
    ∃ s' r bs', s.call L (.calloc nmemb size) = some (s', r) ∧ Inv L s' bs' ∧
      (r = NULL ∧ s' = ⟨initHeapOnce L s.heap, s.live⟩ ∨
        ∃ a n, r = a + sizeofHeader ∧ nmemb * size ≤ n ∧
          (∀ c, c ∈ bs' ∧ c.free = false ↔ c = ⟨a, n, false⟩ ∨ c ∈ bs ∧ c.free = false) ∧
          (∀ c ∈ bs, c.free = false → Kept s.heap.mem s'.heap.mem c) ∧
          ∀ i < nmemb * size, s'.heap.mem (r + i) = 0) := by
  obtain ⟨h, p, bs', heq, hh, -, hkept, ⟨rfl, rfl, hused, -⟩ | ⟨a, n, rfl, hle, hfresh, hused⟩⟩ :=
    malloc_spec hs.heap (Nat.mul_ne_zero hn hk) hmax
  · refine ⟨⟨initHeapOnce L s.heap, s.live⟩, NULL, bs', ?_, hs.keep hh hused, .inl ⟨rfl, rfl⟩⟩
    rw [call, calloc_of_null hn hk hmax heq]
    rfl
  · have hnull := add_sizeofHeader_ne_null a
    have hnew := ((hused ⟨a, n, false⟩).mpr (.inl rfl)).1
    -- the zeros stay within the new payload
    have hzero := h.mem.update_eqOn_of_le (a + sizeofHeader) (fun _ _ => 0) hle
    refine ⟨_, _, bs', by rw [call, calloc_of_ptr hn hk hmax heq hnull]; rfl,
      (hs.alloc hh hle hfresh hused).store hnew hzero, .inr ⟨a, n, rfl, hle, hused,
      fun c hc hcf => (hkept c hc hcf).trans ?_, fun i hi => Mem.update_apply _ _ _ hi⟩⟩
    have hcn : c ≠ ⟨a, n, false⟩ := fun hcn => hfresh c hc hcf (by rw [hcn])
    exact kept_of_payload hh.tiles hnew ((hused c).mpr (.inr ⟨hc, hcf⟩)).1 hcn hzero

theorem keeps_calloc (hs : Inv L s bs) {nmemb size : ℕ} (hmax : nmemb * size ≤ maxRequest) :
    Keeps L s (.calloc nmemb size) := by
  by_cases hzero : nmemb = 0 ∨ size = 0
  · refine ⟨s, NULL, bs, ?_, hs⟩
    simp [call, calloc, if_pos hzero, malloc_zero]
  · obtain ⟨hn, hk⟩ := not_or.mp hzero
    obtain ⟨s', r, bs', heq, hinv, -⟩ := calloc_spec hs hn hk hmax
    exact ⟨s', r, bs', heq, hinv⟩

theorem keeps_free (hs : Inv L s bs) {ptr : ℕ} (hptr : s.Owns ptr) : Keeps L s (.free ptr) := by
  by_cases hnull : ptr = NULL
  · subst hnull
    refine ⟨s, NULL, bs, ?_, hs⟩
    simp [call, free, hs.drop_null]
  · obtain ⟨b, hb, -, rfl⟩ := hs.exists_block hptr hnull
    obtain ⟨h, bs', heq, hh, -, -, hused⟩ := free_spec hs.heap hb
    exact ⟨_, _, bs', by rw [call, heq]; rfl, hs.dealloc hh hused⟩

theorem Chain.size_of_mem {m : Mem} (hm : Chain m bs) {b : Block} (hb : b ∈ bs) :
    blkSize m b.addr = b.size := by
  induction bs with
  | nil => cases hb
  | cons c bs ih =>
    rcases List.mem_cons.mp hb with rfl | hb
    · exact hm.1.size
    · exact ih hm.2 hb

/-- `realloc` of `NULL` is `malloc`. -/
theorem keeps_realloc_null (hs : Inv L s bs) {size : ℕ} (hmax : size ≤ maxRequest) :
    Keeps L s (.realloc NULL size) := by
  obtain ⟨s', r, bs', heq, hinv⟩ := keeps_malloc hs hmax
  refine ⟨s', r, bs', ?_, hinv⟩
  have hrealloc : realloc L s.heap NULL size = malloc L s.heap size := if_pos rfl
  simp only [call] at heq ⊢
  rw [hrealloc, ← heq]
  congr 1
  funext q
  by_cases hq : q.2 = NULL ∧ size ≠ 0
  · rw [if_pos hq, hq.1, grant_null]
  · rw [if_neg hq, hs.drop_null]

/-- `realloc` to size 0 is `free`. -/
theorem keeps_realloc_zero (hs : Inv L s bs) {b : Block} (hb : b ∈ bs) :
    Keeps L s (.realloc (b.payload sizeofHeader) 0) := by
  have hnull : b.payload sizeofHeader ≠ NULL := add_sizeofHeader_ne_null b.addr
  obtain ⟨h, bs', heq, hh, -, -, hused⟩ := free_spec hs.heap hb
  refine ⟨⟨h, drop s.live (b.payload sizeofHeader)⟩, NULL, bs', ?_, hs.dealloc hh hused⟩
  simp [call, realloc, hnull, heq]

/-- **`realloc` beyond the block**: allocate, copy, free; or nothing, when there is no room. -/
theorem realloc_move_spec (hs : Inv L s bs) {b : Block} (hb : b ∈ bs) (hfree : b.free = false)
    {size : ℕ} (hlt : b.size < size) (hmax : size ≤ maxRequest) :
    ∃ s' r bs', s.call L (.realloc (b.payload sizeofHeader) size) = some (s', r) ∧ Inv L s' bs' ∧
      (r = NULL ∧ s' = s ∨
        ∃ a n, r = a + sizeofHeader ∧ size ≤ n ∧ a ≠ b.addr ∧
          (∀ c, c ∈ bs' ∧ c.free = false ↔
            (c = ⟨a, n, false⟩ ∨ c ∈ bs ∧ c.free = false) ∧ c.addr ≠ b.addr) ∧
          (∀ c ∈ bs, c.free = false → Kept s.heap.mem s'.heap.mem c) ∧
          ∀ i < b.size, s'.heap.mem (r + i) = s.heap.mem (b.payload sizeofHeader + i)) := by
  have hnull : b.payload sizeofHeader ≠ NULL := add_sizeofHeader_ne_null b.addr
  have hzero : size ≠ 0 := by omega
  have hblk := hs.heap.sub32_payload hb
  have hsmall : blkSize s.heap.mem (sub32 (b.payload sizeofHeader) sizeofHeader) < size := by
    rw [hblk, Chain.size_of_mem hs.heap.chain hb]
    exact hlt
  obtain ⟨h, p, bs', heq, hh, -, hkept, ⟨rfl, rfl, -, -⟩ | ⟨a, n, rfl, hsn, hfresh, hused⟩⟩ :=
    malloc_spec hs.heap hzero hmax
  · rw [hs.heap.init_eq (List.ne_nil_of_mem hb)] at heq
    refine ⟨s, NULL, bs, ?_, hs, .inl ⟨rfl, rfl⟩⟩
    rw [call, realloc_of_null hnull hzero hsmall heq]
    simp [hzero]
  have hpnull := add_sizeofHeader_ne_null a
  have hnew := ((hused ⟨a, n, false⟩).mpr (.inl rfl)).1
  have hold := ((hused b).mpr (.inr ⟨hb, hfree⟩)).1
  have hcopyN : blkSize h.mem (sub32 (b.payload sizeofHeader) sizeofHeader) = b.size := by
    rw [hblk]
    exact Chain.size_of_mem hh.chain hold
  have hab (c : Block) (hc : c ∈ bs) (hcf : c.free = false) : c ≠ ⟨a, n, false⟩ := fun hcn =>
    hfresh c hc hcf (by rw [hcn])
  -- the copy stays within the new payload
  have hcopy := h.mem.update_eqOn_of_le (a + sizeofHeader)
    (fun m i => m (b.payload sizeofHeader + i)) (hlt.le.trans hsn)
  have hcopied := (hs.alloc hh hsn hfresh hused).store hnew hcopy
  obtain ⟨h', bs'', heq', hh', -, hkept', hused'⟩ := free_spec hcopied.heap hold
  -- the new pointer is not the old one
  have hne : b.payload sizeofHeader ≠ a + sizeofHeader := fun h =>
    hfresh b hb hfree (Nat.add_right_cancel h)
  have hlive : grant (drop s.live (b.payload sizeofHeader)) (a + sizeofHeader) size =
      drop (grant s.live (a + sizeofHeader) size) (b.payload sizeofHeader) := by
    rw [grant_of_ne hpnull, grant_of_ne hpnull]
    exact Function.update_comm hne none (some size) s.live
  refine ⟨⟨h', drop (grant s.live (a + sizeofHeader) size) (b.payload sizeofHeader)⟩,
    a + sizeofHeader, bs'', ?_, hcopied.dealloc hh' hused', .inr ⟨a, n, rfl, hsn,
    (hfresh b hb hfree).symm, fun c => ?_, fun c hc hcf => ?_, fun i hi => ?_⟩⟩
  · rw [call, realloc_of_ptr hnull hzero hsmall heq hpnull, hcopyN, heq']
    simp only [Option.map_some, hpnull, false_and, if_false, hlive]
  · rw [hused', ← and_assoc, hused]
  · have hc' := ((hused c).mpr (.inr ⟨hc, hcf⟩)).1
    refine (hkept c hc hcf).trans (.trans ?_ (hkept' c hc'))
    exact kept_of_payload hh.tiles hnew hc' (hab c hc hcf) hcopy
  · -- the two payloads lie in two blocks
    have hdisj : b.payload sizeofHeader + b.size ≤ a + sizeofHeader ∨
        a + sizeofHeader + b.size ≤ b.payload sizeofHeader := by
      have hapart := hh.tiles.payloads_apart hold hnew (hab b hb hfree)
      simp only [Block.stop, Block.payload] at hapart ⊢
      omega
    calc h'.mem (a + sizeofHeader + i)
        = h.mem.update (a + sizeofHeader) (fun m i => m (b.payload sizeofHeader + i)) b.size
            (a + sizeofHeader + i) := (hkept' _ hnew).byte (by dsimp only; omega)
      _ = h.mem (b.payload sizeofHeader + i) := h.mem.copy_apply hdisj hi
      _ = s.heap.mem (b.payload sizeofHeader + i) := (hkept b hb hfree).byte hi

theorem keeps_realloc (hs : Inv L s bs) {ptr size : ℕ} (hptr : s.Owns ptr)
    (hmax : size ≤ maxRequest) : Keeps L s (.realloc ptr size) := by
  by_cases hnull : ptr = NULL
  · rw [hnull]
    exact keeps_realloc_null hs hmax
  obtain ⟨b, hb, hfree, rfl⟩ := hs.exists_block hptr hnull
  by_cases hzero : size = 0
  · rw [hzero]
    exact keeps_realloc_zero hs hb
  by_cases hle : size ≤ b.size
  · -- the block is large enough
    have hblk := hs.heap.sub32_payload hb
    have hbsize := Chain.size_of_mem hs.heap.chain hb
    refine ⟨_, b.payload sizeofHeader, bs, ?_, hs.regrant hb hfree hle⟩
    rw [call, realloc_of_le hnull hzero (by rwa [hblk, hbsize])]
    simp [hnull]
  · obtain ⟨s', r, bs', heq, hinv, -⟩ := realloc_move_spec hs hb hfree (by omega) hmax
    exact ⟨s', r, bs', heq, hinv⟩

/-- **Every allowed call returns and keeps the invariant.** -/
theorem keeps (hs : Inv L s bs) {c : Call} (hc : s.Allowed c) : Keeps L s c := by
  cases c with
  | malloc size => exact keeps_malloc hs hc
  | calloc nmemb size => exact keeps_calloc hs hc
  | realloc ptr size => exact keeps_realloc hs hc.1 hc.2
  | free ptr => exact keeps_free hs hc
  | store addr val =>
    obtain ⟨p, n, hlive, hp, hlt⟩ := hc
    obtain ⟨b, hb, -, rfl, hn⟩ := hs.live p n hlive
    refine ⟨_, _, bs, rfl, hs.store hb ?_⟩
    refine (Mem.set_eqOn _ addr val).mono fun x hx => ?_
    simp only [Set.mem_compl_iff, Set.mem_Ico, Set.mem_singleton_iff, Block.payload,
      Block.stop] at hx hp hlt ⊢
    omega

theorem inv_boot (L : Layout) (mem : Mem) : Inv L (boot mem) [] :=
  ⟨heapInv_boot L mem, fun _ hb => absurd hb List.not_mem_nil, fun p n hn => by cases hn⟩

/-- **Every session keeps the invariant.** -/
theorem Reachable.inv (hs : Reachable L s) : ∃ bs, Inv L s bs := by
  induction hs with
  | boot mem => exact ⟨[], inv_boot L mem⟩
  | @call s s' c r hs hc heq ih =>
    obtain ⟨bs, hinv⟩ := ih
    obtain ⟨s'', r', bs', heq', hinv'⟩ := keeps hinv hc
    rw [heq] at heq'
    cases heq'
    exact ⟨bs', hinv'⟩

/-! ### What the invariant says -/

/-- **A sound heap**, as the program and a walk along the list see it: the list in memory is in
address order and tiles the heap, no two neighbours are free, every live payload has what was
requested, in a used block and away from all other live payloads and all headers; and once nothing
is live, the list is the initial free block. -/
structure Sound (L : Layout) (s : Sys) (bs : List Block) : Prop where
  chain : Chain s.heap.mem bs
  head : headAddr bs = s.heap.freeList
  bounds : s.heap.freeList ≠ NULL → s.heap.heapLo = L.heapLo ∧ s.heap.heapHi = L.heapHi
  ordered : bs.Pairwise fun b c => b.stop sizeofHeader ≤ c.addr
  tiles : Tiles sizeofHeader s.heap.heapLo s.heap.heapHi bs
  apart : Apart bs
  inBlock : ∀ p n, s.live p = some n → ∃ b ∈ bs, b.free = false ∧
    p = b.payload sizeofHeader ∧ p + n ≤ b.stop sizeofHeader
  offPayloads : ∀ p n q k, s.live p = some n → s.live q = some k → p ≠ q →
    p + n ≤ q ∨ q + k ≤ p
  offHeaders : ∀ p n, s.live p = some n → ∀ b ∈ bs, p + n ≤ b.addr ∨ b.addr + sizeofHeader ≤ p
  freed : s.heap.freeList ≠ NULL → (∀ p, s.live p = none) → bs = [L.initial]

theorem Inv.sound (hs : Inv L s bs) : Sound L s bs := by
  have hne (hfl : s.heap.freeList ≠ NULL) : bs ≠ [] := fun h => hfl (hs.heap.eq_nil_iff.mp h)
  have hblock (p n : ℕ) (hn : s.live p = some n) : ∃ b ∈ bs, b.free = false ∧
      p = b.payload sizeofHeader ∧ p + n ≤ b.stop sizeofHeader := by
    obtain ⟨b, hb, hfree, hpay, hle⟩ := hs.live p n hn
    refine ⟨b, hb, hfree, hpay, ?_⟩
    simp only [Block.payload, Block.stop] at hpay ⊢
    omega
  refine ⟨hs.heap.chain, hs.heap.head, fun hfl => hs.heap.bounds (hne hfl),
    hs.heap.tiles.pairwise, hs.heap.tiles, hs.heap.apart, hblock, ?_, ?_, ?_⟩
  · -- two payloads lie in two blocks, and blocks do not overlap
    intro p n q k hp hq hpq
    obtain ⟨b, hb, -, rfl, hbn⟩ := hblock p n hp
    obtain ⟨c, hc, -, rfl, hck⟩ := hblock q k hq
    have hbc : b ≠ c := fun heq => hpq (by rw [heq])
    rcases hs.heap.tiles.payloads_apart hb hc hbc with hle | hle
    · exact .inl (hbn.trans hle)
    · exact .inr (hck.trans hle)
  · intro p n hp b hb
    obtain ⟨c, hc, -, rfl, hcn⟩ := hblock p n hp
    simp only [Block.payload] at hcn ⊢
    rcases hs.heap.tiles.eq_or_apart hb hc with rfl | hlt | hlt
    · exact .inr le_rfl
    · simp only [Block.stop] at hlt
      omega
    · omega
  · -- without live pointers every block is free, and free neighbours are merged
    intro hfl hdead
    obtain ⟨hlo, hhi⟩ := hs.heap.bounds (hne hfl)
    have hroom := L.heapLo_add_lt
    have ht := hs.heap.tiles
    rw [hlo, hhi] at ht
    refine eq_single ht hs.heap.apart (by omega) fun b hb => ?_
    cases hfree : b.free with
    | true => rfl
    | false =>
      obtain ⟨n, hn⟩ := hs.used b hb hfree
      rw [hdead] at hn
      cases hn

/-- **The heap is sound after every call of every session**, every further call returns, and
`malloc` of a size other than 0 returns `NULL` only if no free block holds the size rounded up
to 8. -/
theorem heap_sound (hs : Reachable L s) :
    (∃ bs, Sound L s bs) ∧
    (∀ c, s.Allowed c → ∃ s' r, s.call L c = some (s', r)) ∧
    (∀ size s', size ≠ 0 → size ≤ maxRequest → s.call L (.malloc size) = some (s', NULL) →
      ∃ bs, Sound L s' bs ∧ ∀ b ∈ bs, b.free = true → b.size < (size + 7) / 8 * 8) := by
  obtain ⟨bs, hinv⟩ := hs.inv
  refine ⟨⟨bs, hinv.sound⟩, fun c hc => ?_, fun size s' hsize hmax hcall => ?_⟩
  · obtain ⟨s', r, -, heq, -⟩ := keeps hinv hc
    exact ⟨s', r, heq⟩
  · obtain ⟨h, p, bs', heq, hh, -, -, ⟨rfl, -, hused, hfull⟩ | ⟨a, n, rfl, -⟩⟩ :=
      malloc_spec hinv.heap hsize hmax
    · rw [call, heq] at hcall
      cases hcall
      rw [alignUp_eq_div (by simp only [maxRequest, ALIGNMENT] at hmax ⊢; omega)] at hfull
      exact ⟨bs', (hinv.keep hh hused).sound, hfull⟩
    · -- a payload is never at address 0
      rw [call, heq] at hcall
      simp only [Option.map_some, Option.some.injEq, Prod.mk.injEq, NULL, sizeofHeader] at hcall
      omega

end Calls

/-- A heap of 3824 bytes behind a small `.bss`. -/
def smallLayout : Layout where
  statics := 0
  ebss := 12
  stackTop := 4096
  inBss := le_rfl
  stackTop_lt := by decide
  room := by decide

/-- The first allocation of such a heap gives the first payload. -/
theorem heap_sound_smallLayout : ∃ s,
    (boot fun _ => 0).call smallLayout (.malloc 10) = some (s, 28) ∧
    ∃ bs, Sound smallLayout s bs := by
  have h : ((boot fun _ => 0).call smallLayout (.malloc 10)).map Prod.snd = some 28 := by
    decide +kernel
  obtain ⟨⟨s, r⟩, heq, rfl⟩ := Option.map_eq_some_iff.mp h
  have hallowed : (boot fun _ => 0).Allowed (.malloc 10) := by
    show 10 ≤ maxRequest
    decide
  exact ⟨s, heq, (heap_sound (.call (.boot _) hallowed heq)).1⟩

end Sys

end KwsSoc.Heap
