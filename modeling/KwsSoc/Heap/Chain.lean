import KwsSoc.Heap.Malloc
import KwsSoc.Lib.BlockList

/-! # The block list in memory

`Chain m bs` says that memory holds the block list `bs`: each header has the size, the free flag
and the link of its block. On such a memory the loops of the allocator compute what the list
operations of `BlockList` compute, and touch nothing outside the heap:

* **`mallocLoop_of_some`**, **`mallocLoop_of_none`** — the loop of `malloc` is `firstFit`;
* **`coalesceLoop_eq`** — the loop of `coalesce_all` is `coalesce`;
* **`chain_setFree`** — the store of `free` is `release`. -/

namespace KwsSoc.Heap

open ByteMemory BlockList

/-- Address of the first block, `NULL` for the empty list. -/
def headAddr : List Block → ℕ
  | [] => NULL
  | b :: _ => b.addr

/-- The header of `b` is in memory, and links to `nxt`. -/
structure Stored (m : Mem) (nxt : ℕ) (b : Block) : Prop where
  size : blkSize m b.addr = b.size
  next : blkNext m b.addr = nxt
  free : blkFree m b.addr = b.free.toNat

/-- The block list `bs` is in memory. -/
def Chain (m : Mem) : List Block → Prop
  | [] => True
  | b :: bs => Stored m (headAddr bs) b ∧ Chain m bs

@[simp] theorem chain_nil (m : Mem) : Chain m [] := trivial

@[simp] theorem chain_cons {m : Mem} {b : Block} {bs : List Block} :
    Chain m (b :: bs) ↔ Stored m (headAddr bs) b ∧ Chain m bs := Iff.rfl

/-- A memory holds at most one list that tiles given bounds. -/
theorem Chain.unique {m : Mem} {lo hi : ℕ} {bs cs : List Block} (hb : Chain m bs) (hc : Chain m cs)
    (htb : Tiles sizeofHeader lo hi bs) (htc : Tiles sizeofHeader lo hi cs) : bs = cs := by
  -- a tiling of nothing is empty, since every block has a header
  have hnil {x : ℕ} {d : Block} {ds : List Block} : ¬ Tiles sizeofHeader x x (d :: ds) := by
    intro h
    have hstop := h.2.le
    have haddr := h.1
    simp only [Block.stop, sizeofHeader] at hstop
    omega
  induction bs generalizing lo cs with
  | nil =>
    obtain rfl : lo = hi := htb
    cases cs with
    | nil => rfl
    | cons c cs => exact absurd htc hnil
  | cons b bs ih =>
    cases cs with
    | nil =>
      obtain rfl : lo = hi := htc
      exact absurd htb hnil
    | cons c cs =>
      have haddr : b.addr = c.addr := htb.1.trans htc.1.symm
      have hsize : b.size = c.size := by rw [← hb.1.size, haddr, hc.1.size]
      have hfree : b.free = c.free := by
        have hnat : b.free.toNat = c.free.toNat := by rw [← hb.1.free, haddr, hc.1.free]
        cases hbf : b.free <;> cases hcf : c.free <;> simp_all
      have hbc : b = c := by
        obtain ⟨addr, size, free⟩ := b
        exact (Block.mk.injEq addr size free _ _ _).mpr ⟨haddr, hsize, hfree⟩
      subst hbc
      rw [ih hb.2 hc.2 htb.2 htc.2]

/-! ## Frames -/

section Frames

variable {m m' : Mem} {nxt lo hi : ℕ} {b : Block} {bs : List Block}

/-- A header depends on its twelve bytes. -/
theorem Stored.congr (h : Stored m nxt b)
    (heq : Set.EqOn m' m (Set.Ico b.addr (b.addr + sizeofHeader))) : Stored m' nxt b := by
  have hword (k : ℕ) (hk : k + 4 ≤ 12) : m'.word (b.addr + k) = m.word (b.addr + k) := by
    refine Mem.word_congr fun x hx => heq ?_
    simp only [Set.mem_Ico, sizeofHeader] at hx ⊢
    omega
  exact ⟨(hword 0 (by omega)).trans h.size, (hword 4 (by omega)).trans h.next,
    (hword 8 (by omega)).trans h.free⟩

/-- A list depends on its headers. -/
theorem Chain.congr (h : Chain m bs)
    (heq : ∀ b ∈ bs, Set.EqOn m' m (Set.Ico b.addr (b.addr + sizeofHeader))) : Chain m' bs := by
  induction bs with
  | nil => trivial
  | cons b bs ih =>
    exact ⟨h.1.congr (heq b List.mem_cons_self),
      ih h.2 fun c hc => heq c (List.mem_cons_of_mem _ hc)⟩

/-- A tiling is not disturbed by what happens outside its bounds. -/
theorem Chain.frame (h : Chain m bs) (ht : Tiles sizeofHeader lo hi bs)
    (heq : Set.EqOn m' m (Set.Ico lo hi)) : Chain m' bs := by
  refine h.congr fun b hb x hx => heq ?_
  have := ht.bounds hb
  simp only [Set.mem_Ico, Block.stop] at hx this ⊢
  omega

/-- A field write stays within the header. -/
theorem setField_eqOn (m : Mem) {blk k : ℕ} (hk : k + 4 ≤ sizeofHeader) (v : ℕ) :
    Set.EqOn (m.setWord (blk + k) v) m (Set.Ico blk (blk + sizeofHeader))ᶜ := by
  intro x hx
  refine m.setWord_eqOn (blk + k) v ?_
  simp only [Set.mem_compl_iff, Set.mem_Ico] at hx ⊢
  omega

end Frames

/-! ## Fields after a field write -/

section Fields

variable (m : Mem) (blk : ℕ) {v : ℕ}

theorem blkSize_setSize (hv : v < 2 ^ 32) : blkSize (setSize m blk v) blk = v :=
  m.word_setWord_same blk hv

theorem blkNext_setNext (hv : v < 2 ^ 32) : blkNext (setNext m blk v) blk = v :=
  m.word_setWord_same (blk + 4) hv

theorem blkFree_setFree (hv : v < 2 ^ 32) : blkFree (setFree m blk v) blk = v :=
  m.word_setWord_same (blk + 8) hv

variable (v)

@[simp] theorem blkNext_setSize : blkNext (setSize m blk v) blk = blkNext m blk :=
  m.word_setWord_of_disjoint v (by omega)

@[simp] theorem blkFree_setSize : blkFree (setSize m blk v) blk = blkFree m blk :=
  m.word_setWord_of_disjoint v (by omega)

@[simp] theorem blkSize_setNext : blkSize (setNext m blk v) blk = blkSize m blk :=
  m.word_setWord_of_disjoint v (by omega)

@[simp] theorem blkFree_setNext : blkFree (setNext m blk v) blk = blkFree m blk :=
  m.word_setWord_of_disjoint v (by omega)

@[simp] theorem blkSize_setFree : blkSize (setFree m blk v) blk = blkSize m blk :=
  m.word_setWord_of_disjoint v (by omega)

@[simp] theorem blkNext_setFree : blkNext (setFree m blk v) blk = blkNext m blk :=
  m.word_setWord_of_disjoint v (by omega)

end Fields

section Headers

variable {m : Mem} {a size nxt free : ℕ}

/-- The three stores that write a header. -/
def setHeader (m : Mem) (a size nxt free : ℕ) : Mem :=
  setFree (setNext (setSize m a size) a nxt) a free

theorem stored_setHeader {b : Block} (hsize : b.size < 2 ^ 32) (hnxt : nxt < 2 ^ 32) :
    Stored (setHeader m b.addr b.size nxt b.free.toNat) nxt b := by
  have hfree : b.free.toNat < 2 ^ 32 := by cases b.free <;> decide
  refine ⟨?_, ?_, blkFree_setFree _ b.addr hfree⟩
  · rw [setHeader, blkSize_setFree, blkSize_setNext, blkSize_setSize _ _ hsize]
  · rw [setHeader, blkNext_setFree, blkNext_setNext _ _ hnxt]

theorem setFree_eqOn (m : Mem) (a v : ℕ) :
    Set.EqOn (setFree m a v) m (Set.Ico a (a + sizeofHeader))ᶜ := setField_eqOn m (by decide) v

theorem setNext_eqOn (m : Mem) (a v : ℕ) :
    Set.EqOn (setNext m a v) m (Set.Ico a (a + sizeofHeader))ᶜ := setField_eqOn m (by decide) v

theorem setSize_eqOn (m : Mem) (a v : ℕ) :
    Set.EqOn (setSize m a v) m (Set.Ico a (a + sizeofHeader))ᶜ :=
  setField_eqOn (k := 0) m (by decide) v

theorem setHeader_eqOn (m : Mem) (a size nxt free : ℕ) :
    Set.EqOn (setHeader m a size nxt free) m (Set.Ico a (a + sizeofHeader))ᶜ :=
  ((setFree_eqOn _ a free).trans (setNext_eqOn _ a nxt)).trans (setSize_eqOn m a size)

end Headers

/-! ## The loop of `malloc` -/

theorem sub32_eq {a b : ℕ} (hba : b ≤ a) (ha : a < 2 ^ 32) : sub32 a b = a - b := by
  unfold sub32
  omega

theorem u32_eq {n : ℕ} (hn : n < 2 ^ 32) : u32 n = n := Nat.mod_eq_of_lt hn

section Place

variable {m : Mem} {b : Block} {bs : List Block} {need hi : ℕ}

/-- A block that is too small for a remainder stays whole. -/
theorem splitBlock_of_le (hb : Stored m (headAddr bs) b) (hsize : b.size < 2 ^ 32)
    (hneed : need ≤ b.size) (hle : b.size - need ≤ sizeofHeader + ALIGNMENT) :
    splitBlock m b.addr need = m := by
  simp only [splitBlock, hb.size, sub32_eq hneed hsize, if_pos hle]

/-- Otherwise two headers are written: the remainder's, and then the block's own. -/
theorem splitBlock_of_lt (hb : Stored m (headAddr bs) b) (hstop : b.stop sizeofHeader < 2 ^ 32)
    (hneed : need ≤ b.size) (hlt : sizeofHeader + ALIGNMENT < b.size - need) :
    setFree (splitBlock m b.addr need) b.addr 0 =
      setHeader (setHeader m (b.addr + sizeofHeader + need) (b.size - need - sizeofHeader)
        (headAddr bs) 1) b.addr need (b.addr + sizeofHeader + need) 0 := by
  have hnew : u32 (b.addr + sizeofHeader + need) = b.addr + sizeofHeader + need :=
    u32_eq (by simp only [Block.stop] at hstop; omega)
  have hsize : b.size < 2 ^ 32 := by simp only [Block.stop] at hstop; omega
  have hrem : sub32 (b.size - need) sizeofHeader = b.size - need - sizeofHeader :=
    sub32_eq (by omega) (by omega)
  -- the first store lies behind the header that is read next
  have hnext (v : ℕ) : blkNext (setSize m (b.addr + sizeofHeader + need) v) b.addr =
      headAddr bs := by
    rw [← hb.next]
    exact m.word_setWord_of_disjoint v (by simp only [sizeofHeader]; omega)
  simp only [splitBlock, hb.size, sub32_eq hneed hsize, if_neg (Nat.not_le.mpr hlt), hnew, hrem,
    hnext, setHeader]

/-- **`split_block` and the store that marks the block used place it**, within the block. -/
theorem chain_place (hb : Stored m (headAddr bs) b) (hbs : Chain m bs)
    (ht : Tiles sizeofHeader (b.stop sizeofHeader) hi bs) (hhi : hi < 2 ^ 32)
    (hneed : need ≤ b.size) :
    Chain (setFree (splitBlock m b.addr need) b.addr 0)
        (b.place sizeofHeader (sizeofHeader + ALIGNMENT) need ++ bs) ∧
      Set.EqOn (setFree (splitBlock m b.addr need) b.addr 0) m
        (Set.Ico b.addr (b.stop sizeofHeader))ᶜ := by
  have hstop : b.stop sizeofHeader < 2 ^ 32 := lt_of_le_of_lt ht.le hhi
  have hsize : b.size < 2 ^ 32 := by simp only [Block.stop] at hstop; omega
  -- what stays within the block does not disturb the rest
  have hrest {m' : Mem} (heq : Set.EqOn m' m (Set.Ico b.addr (b.stop sizeofHeader))ᶜ) :
      Chain m' bs := by
    refine hbs.frame ht fun x hx => heq ?_
    simp only [Set.mem_Ico, Set.mem_compl_iff] at hx ⊢
    omega
  have hwithin {x : ℕ} (hx : x ∈ (Set.Ico b.addr (b.stop sizeofHeader))ᶜ) :
      x < b.addr ∨ b.addr + sizeofHeader + b.size ≤ x := by
    simp only [Set.mem_compl_iff, Set.mem_Ico, Block.stop] at hx
    omega
  unfold Block.place
  by_cases hle : b.size - need ≤ sizeofHeader + ALIGNMENT
  · rw [if_pos hle, splitBlock_of_le hb hsize hneed hle]
    have heq : Set.EqOn (setFree m b.addr 0) m (Set.Ico b.addr (b.stop sizeofHeader))ᶜ := by
      intro x hx
      refine setFree_eqOn m b.addr 0 ?_
      have := hwithin hx
      simp only [Set.mem_compl_iff, Set.mem_Ico]
      omega
    refine ⟨⟨⟨?_, ?_, ?_⟩, hrest heq⟩, heq⟩
    · simpa using hb.size
    · simpa using hb.next
    · exact blkFree_setFree m b.addr (by decide)
  · have hlt : sizeofHeader + ALIGNMENT < b.size - need := Nat.lt_of_not_le hle
    have hslack : sizeofHeader ≤ sizeofHeader + ALIGNMENT := Nat.le_add_right _ _
    rw [if_neg hle, splitBlock_of_lt hb hstop hneed hlt]
    have heq : Set.EqOn (setHeader (setHeader m (b.addr + sizeofHeader + need)
        (b.size - need - sizeofHeader) (headAddr bs) 1) b.addr need
        (b.addr + sizeofHeader + need) 0) m (Set.Ico b.addr (b.stop sizeofHeader))ᶜ := by
      intro x hx
      have := hwithin hx
      refine (setHeader_eqOn _ b.addr _ _ _ ?_).trans (setHeader_eqOn m _ _ _ _ ?_)
      · simp only [Set.mem_compl_iff, Set.mem_Ico]
        omega
      · simp only [Set.mem_compl_iff, Set.mem_Ico]
        omega
    have hhead : headAddr bs < 2 ^ 32 := by
      rw [← hb.next]
      exact m.word_lt _
    refine ⟨⟨?_, ?_, hrest heq⟩, heq⟩
    · exact stored_setHeader (b := ⟨b.addr, need, false⟩) (by dsimp only; omega)
        (by simp only [Block.stop] at hstop; omega)
    · -- the block's own header lies before the remainder's
      refine (stored_setHeader (b := ⟨b.addr + sizeofHeader + need, b.size - need - sizeofHeader,
        true⟩) (by dsimp only; omega) hhead).congr fun x hx => setHeader_eqOn _ b.addr _ _ _ ?_
      simp only [Set.mem_Ico, Set.mem_compl_iff] at hx ⊢
      omega

theorem headAddr_append_place (k : ℕ) (b : Block) (bs cs : List Block) :
    headAddr (b.place sizeofHeader k need ++ bs) = headAddr (b :: cs) := by
  unfold Block.place
  split <;> rfl

/-- The test of the loop on a stored block. -/
theorem fits_iff {nxt : ℕ} (hb : Stored m nxt b) :
    (blkFree m b.addr ≠ 0 ∧ need ≤ blkSize m b.addr) ↔ (b.free = true ∧ need ≤ b.size) := by
  rw [hb.free, hb.size]
  cases b.free <;> simp

/-- One round of the loop that does not take the block. -/
theorem mallocLoop_skip {nxt : ℕ} (hb : Stored m nxt b) (haddr : b.addr ≠ NULL)
    (hfit : ¬ (b.free = true ∧ need ≤ b.size)) (n : ℕ) :
    mallocLoop need (n + 1) m b.addr = mallocLoop need n m nxt := by
  rw [mallocLoop, if_pos haddr, if_neg (fun h => hfit ((fits_iff hb).mp h)), hb.next]

/-- The loop of `malloc` finds nothing when first fit does not. -/
theorem mallocLoop_of_none {lo n : ℕ} (hm : Chain m bs) (ht : Tiles sizeofHeader lo hi bs)
    (hlo : 0 < lo) (hn : bs.length < n)
    (hnone : firstFit sizeofHeader (sizeofHeader + ALIGNMENT) need bs = none) :
    mallocLoop need n m (headAddr bs) = some (m, NULL) := by
  -- each round moves to the next block and takes one unit of fuel
  induction bs generalizing lo n with
  | nil =>
    obtain ⟨n, rfl⟩ := Nat.exists_eq_succ_of_ne_zero (Nat.ne_zero_of_lt hn)
    simp [mallocLoop, headAddr]
  | cons b bs ih =>
    obtain ⟨n, rfl⟩ := Nat.exists_eq_succ_of_ne_zero (Nat.ne_zero_of_lt hn)
    have hall := firstFit_eq_none.mp hnone
    have haddr : b.addr ≠ NULL := by rw [ht.1]; exact Nat.ne_of_gt hlo
    have hfit : ¬ (b.free = true ∧ need ≤ b.size) := fun h =>
      Nat.not_lt.mpr h.2 (hall b List.mem_cons_self h.1)
    rw [headAddr, mallocLoop_skip hm.1 haddr hfit]
    refine ih hm.2 ht.2 (by simp only [Block.stop, ht.1]; omega) ?_ ?_
    · simp only [List.length_cons] at hn
      omega
    · exact firstFit_eq_none.mpr fun c hc => hall c (List.mem_cons_of_mem _ hc)

/-- **The loop of `malloc` is first fit.** It writes within the block that it takes. -/
theorem mallocLoop_of_some {lo n p : ℕ} {bs' : List Block} (hm : Chain m bs)
    (ht : Tiles sizeofHeader lo hi bs) (hlo : 0 < lo) (hhi : hi < 2 ^ 32) (hn : bs.length < n)
    (hsome : firstFit sizeofHeader (sizeofHeader + ALIGNMENT) need bs = some (p, bs')) :
    ∃ m', mallocLoop need n m (headAddr bs) = some (m', p + sizeofHeader) ∧ Chain m' bs' ∧
      headAddr bs' = headAddr bs ∧
      ∃ b ∈ bs, b.free = true ∧ b.addr = p ∧
        Set.EqOn m' m (Set.Ico b.addr (b.stop sizeofHeader))ᶜ := by
  induction bs generalizing lo n bs' with
  | nil => cases hsome
  | cons b bs ih =>
    obtain ⟨n, rfl⟩ := Nat.exists_eq_succ_of_ne_zero (Nat.ne_zero_of_lt hn)
    have haddr : b.addr ≠ NULL := by rw [ht.1]; exact Nat.ne_of_gt hlo
    -- the loop takes the block, or skips it and goes on in the rest
    by_cases hfit : b.free = true ∧ need ≤ b.size
    · rw [firstFit_cons, if_pos hfit] at hsome
      cases hsome
      obtain ⟨hchain, heq⟩ := chain_place hm.1 hm.2 ht.2 hhi hfit.2
      have hstop : b.stop sizeofHeader ≤ hi := ht.2.le
      refine ⟨_, ?_, hchain, headAddr_append_place _ b bs bs, b, List.mem_cons_self, hfit.1, rfl,
        heq⟩
      rw [headAddr, mallocLoop, if_pos haddr, if_pos ((fits_iff hm.1).mpr hfit),
        u32_eq (by simp only [Block.stop] at hstop; omega)]
    · rw [firstFit_cons, if_neg hfit] at hsome
      obtain ⟨⟨q, cs⟩, hcs, hq⟩ := Option.map_eq_some_iff.mp hsome
      cases hq
      obtain ⟨m', hloop, hchain, hhead, c, hc, hcfree, hcaddr, heq⟩ :=
        ih (n := n) hm.2 ht.2 (by simp only [Block.stop, ht.1]; omega)
          (by simp only [List.length_cons] at hn; omega) hcs
      refine ⟨m', ?_, ⟨?_, hchain⟩, rfl, c, List.mem_cons_of_mem _ hc, hcfree, hcaddr, heq⟩
      · rw [headAddr, mallocLoop_skip hm.1 haddr hfit, hloop]
      · -- the skipped header lies before the block that is taken
        rw [hhead]
        refine hm.1.congr fun x hx => heq ?_
        have hle := (ht.2.bounds hc).1
        simp only [Set.mem_Ico, Set.mem_compl_iff, Block.stop] at hx hle ⊢
        omega

end Place

/-! ## The loop of `coalesce_all` -/

/-- The bytes of the headers of a list. -/
def headers (bs : List Block) : Set ℕ :=
  {x | ∃ b ∈ bs, x ∈ Set.Ico b.addr (b.addr + sizeofHeader)}

/-- A payload holds no header. -/
theorem payload_subset_headers_compl {bs : List Block} {lo hi : ℕ} {b : Block}
    (ht : Tiles sizeofHeader lo hi bs) (hb : b ∈ bs) :
    Set.Ico (b.payload sizeofHeader) (b.stop sizeofHeader) ⊆ (headers bs)ᶜ := by
  rintro x hx ⟨c, hc, hxc⟩
  simp only [Set.mem_Ico, Block.payload, Block.stop] at hx hxc
  rcases ht.eq_or_apart hb hc with rfl | hlt | hlt
  · omega
  · simp only [Block.stop] at hlt
    omega
  · simp only [Block.stop] at hlt
    omega

section Coalesce

variable {m : Mem} {b c : Block} {bs rest : List Block} {lo hi n : ℕ}

/-- The merging stores write the header of the merged block. -/
theorem chain_merge (hm : Chain m (b :: c :: rest))
    (ht : Tiles sizeofHeader lo hi (b :: c :: rest)) (hhi : hi < 2 ^ 32) (hfree : b.free = true) :
    let m₁ := setSize m b.addr (u32 (blkSize m b.addr + (sizeofHeader + blkSize m c.addr)))
    let m₂ := setNext m₁ b.addr (blkNext m₁ c.addr)
    Chain m₂ (b.merge sizeofHeader c :: rest) ∧
      Set.EqOn m₂ m (Set.Ico b.addr (b.addr + sizeofHeader))ᶜ := by
  obtain ⟨hb, hc, hrest⟩ := hm
  obtain ⟨-, hcaddr, htrest⟩ := ht
  have hstop : c.stop sizeofHeader ≤ hi := htrest.le
  simp only [Block.stop] at hcaddr hstop
  intro m₁ m₂
  -- the sum of the sizes does not wrap, since the merged block ends within the heap
  have hsize : u32 (blkSize m b.addr + (sizeofHeader + blkSize m c.addr)) =
      b.size + (sizeofHeader + c.size) := by
    rw [hb.size, hc.size, u32_eq (by omega)]
  -- the header of `c` is still there when its link is read
  have hnext : blkNext m₁ c.addr = headAddr rest := by
    rw [← hc.next]
    exact m.word_setWord_of_disjoint _ (by simp only [sizeofHeader] at hcaddr; omega)
  have heq : Set.EqOn m₂ m (Set.Ico b.addr (b.addr + sizeofHeader))ᶜ :=
    (setNext_eqOn m₁ b.addr _).trans (setSize_eqOn m b.addr _)
  have hhead : headAddr rest < 2 ^ 32 := by
    rw [← hc.next]
    exact m.word_lt _
  refine ⟨⟨⟨?_, ?_, ?_⟩, ?_⟩, heq⟩
  · simp only [m₂, m₁, Block.merge, blkSize_setNext, hsize]
    exact blkSize_setSize m b.addr (by omega)
  · simp only [m₂, hnext, Block.merge]
    exact blkNext_setNext m₁ b.addr hhead
  · simp only [m₂, m₁, Block.merge, blkFree_setNext, blkFree_setSize, hb.free, hfree]
  · refine hrest.frame htrest fun x hx => heq ?_
    simp only [Set.mem_Ico, Set.mem_compl_iff, Block.stop] at hx ⊢
    omega

theorem headAddr_coalesce (bs : List Block) : headAddr (coalesce sizeofHeader bs) = headAddr bs := by
  have h := head_coalesce (h := sizeofHeader) bs
  cases hc : coalesce sizeofHeader bs <;> cases bs <;> simp_all [headAddr]

/-- The loop goes on at a block that has a neighbour. -/
theorem coalesce_guard (hm : Chain m (b :: c :: rest))
    (ht : Tiles sizeofHeader lo hi (b :: c :: rest)) (hlo : 0 < lo) :
    b.addr ≠ NULL ∧ blkNext m b.addr ≠ NULL := by
  have hbaddr : b.addr = lo := ht.1
  have hcaddr : c.addr = b.addr + sizeofHeader + b.size := ht.2.1
  have hnext : blkNext m b.addr = c.addr := hm.1.next
  simp only [NULL]
  omega

/-- One round of the loop that merges: it stays at the merged block. -/
theorem coalesceLoop_merge (hm : Chain m (b :: c :: rest))
    (ht : Tiles sizeofHeader lo hi (b :: c :: rest)) (hlo : 0 < lo) (hhi : hi < 2 ^ 32)
    (hboth : b.free = true ∧ c.free = true) (n : ℕ) :
    let m₁ := setSize m b.addr (u32 (blkSize m b.addr + (sizeofHeader + blkSize m c.addr)))
    coalesceLoop (n + 1) m b.addr =
      coalesceLoop n (setNext m₁ b.addr (blkNext m₁ c.addr)) b.addr := by
  have hnext : blkNext m b.addr = c.addr := hm.1.next
  have hcstop : c.stop sizeofHeader ≤ hi := ht.2.2.le
  have hcaddr : b.addr + sizeofHeader + b.size = c.addr := ht.2.1.symm
  -- the blocks tile the heap, so the neighbour starts where the block ends
  have hend : u32 (b.addr + sizeofHeader + blkSize m b.addr) = c.addr := by
    rw [hm.1.size, hcaddr, u32_eq (by simp only [Block.stop] at hcstop; omega)]
  have htest : blkFree m b.addr ≠ 0 ∧ blkFree m (blkNext m b.addr) ≠ 0 ∧
      u32 (b.addr + sizeofHeader + blkSize m b.addr) = blkNext m b.addr := by
    rw [hend, hnext, hm.1.free, hm.2.1.free, hboth.1, hboth.2]
    exact ⟨by decide, by decide, rfl⟩
  intro m₁
  rw [coalesceLoop, if_pos (coalesce_guard hm ht hlo), if_pos htest]
  simp only [blkNext_setSize, hnext, m₁]

/-- One round of the loop that does not merge: it goes on to the neighbour. -/
theorem coalesceLoop_skip (hm : Chain m (b :: c :: rest))
    (ht : Tiles sizeofHeader lo hi (b :: c :: rest)) (hlo : 0 < lo)
    (hnot : ¬ (b.free = true ∧ c.free = true)) (n : ℕ) :
    coalesceLoop (n + 1) m b.addr = coalesceLoop n m c.addr := by
  have hnext : blkNext m b.addr = c.addr := hm.1.next
  have htest : ¬ (blkFree m b.addr ≠ 0 ∧ blkFree m (blkNext m b.addr) ≠ 0 ∧
      u32 (b.addr + sizeofHeader + blkSize m b.addr) = blkNext m b.addr) := by
    rintro ⟨hbf, hcf, -⟩
    rw [hnext, hm.2.1.free] at hcf
    rw [hm.1.free] at hbf
    exact hnot ⟨by simpa using hbf, by simpa using hcf⟩
  rw [coalesceLoop, if_pos (coalesce_guard hm ht hlo), if_neg htest, hnext]

/-- **The loop of `coalesce_all` is `coalesce`.** It writes into headers only. -/
theorem coalesceLoop_eq (hm : Chain m bs) (ht : Tiles sizeofHeader lo hi bs) (hlo : 0 < lo)
    (hhi : hi < 2 ^ 32) (hn : bs.length < n) :
    ∃ m', coalesceLoop n m (headAddr bs) = some m' ∧ Chain m' (coalesce sizeofHeader bs) ∧
      Set.EqOn m' m (headers bs)ᶜ := by
  -- on the list, since a merge leaves the cursor where it is
  induction bs using coalesce.induct sizeofHeader generalizing m lo n with
  | case1 =>
    obtain ⟨n, rfl⟩ := Nat.exists_eq_succ_of_ne_zero (Nat.ne_zero_of_lt hn)
    exact ⟨m, by simp [coalesceLoop, headAddr], by rw [coalesce]; trivial, fun _ _ => rfl⟩
  | case2 b =>
    obtain ⟨n, rfl⟩ := Nat.exists_eq_succ_of_ne_zero (Nat.ne_zero_of_lt hn)
    have hnext : blkNext m b.addr = NULL := hm.1.next
    exact ⟨m, by simp [coalesceLoop, headAddr, hnext], by rwa [coalesce], fun _ _ => rfl⟩
  | case3 b c rest hboth ih =>
    obtain ⟨n, rfl⟩ := Nat.exists_eq_succ_of_ne_zero (Nat.ne_zero_of_lt hn)
    obtain ⟨hchain, heq⟩ := chain_merge hm ht hhi hboth.1
    obtain ⟨m', hloop, hchain', heq'⟩ := ih (n := n) hchain (tiles_merge ht) hlo
      (by simp only [List.length_cons] at hn ⊢; omega)
    refine ⟨m', ?_, ?_, ?_⟩
    · rw [headAddr, coalesceLoop_merge hm ht hlo hhi hboth]
      exact hloop
    · rwa [coalesce_cons_cons, if_pos hboth]
    · refine fun x hx => (heq' ?_).trans (heq ?_)
      -- the header of `c` is no longer one, so it is not written either
      · rintro ⟨d, hd, hxd⟩
        rcases List.mem_cons.mp hd with rfl | hd
        · exact hx ⟨b, List.mem_cons_self, hxd⟩
        · exact hx ⟨d, List.mem_cons_of_mem _ (List.mem_cons_of_mem _ hd), hxd⟩
      · exact fun hxb => hx ⟨b, List.mem_cons_self, hxb⟩
  | case4 b c rest hnot ih =>
    obtain ⟨n, rfl⟩ := Nat.exists_eq_succ_of_ne_zero (Nat.ne_zero_of_lt hn)
    obtain ⟨m', hloop, hchain, heq⟩ := ih (n := n) hm.2 ht.2
      (by simp only [Block.stop, ht.1]; omega) (by simp only [List.length_cons] at hn ⊢; omega)
    refine ⟨m', ?_, ?_, ?_⟩
    · rw [headAddr, coalesceLoop_skip hm ht hlo hnot]
      exact hloop
    · rw [coalesce_cons_cons, if_neg hnot]
      refine ⟨?_, hchain⟩
      rw [headAddr_coalesce]
      -- the headers behind `b` are the only ones written
      refine hm.1.congr fun x hx => heq ?_
      rintro ⟨d, hd, hxd⟩
      have hle := (ht.2.bounds hd).1
      simp only [Set.mem_Ico, Block.stop] at hx hxd hle
      omega
    · intro x hx
      refine heq ?_
      rintro ⟨d, hd, hxd⟩
      exact hx ⟨d, List.mem_cons_of_mem _ hd, hxd⟩

end Coalesce

/-! ## The store of `free` -/

theorem headAddr_release (a : ℕ) (bs : List Block) : headAddr (release a bs) = headAddr bs := by
  cases bs with
  | nil => rfl
  | cons b bs =>
    simp only [release, List.map_cons, headAddr]
    split <;> rfl

/-- A release moves no header. -/
theorem headers_release (a : ℕ) (bs : List Block) : headers (release a bs) = headers bs := by
  have haddr (b : Block) : (if b.addr = a then { b with free := true } else b).addr = b.addr := by
    split <;> rfl
  ext x
  constructor
  · rintro ⟨c, hc, hx⟩
    obtain ⟨b, hb, rfl⟩ := List.mem_map.mp hc
    rw [haddr] at hx
    exact ⟨b, hb, hx⟩
  · rintro ⟨b, hb, hx⟩
    refine ⟨_, List.mem_map.mpr ⟨b, hb, rfl⟩, ?_⟩
    rwa [haddr]

/-- **The store of `free` is a release.** -/
theorem chain_setFree {m : Mem} {bs : List Block} {lo hi : ℕ} {b : Block} (hm : Chain m bs)
    (ht : Tiles sizeofHeader lo hi bs) (hb : b ∈ bs) :
    Chain (setFree m b.addr 1) (release b.addr bs) := by
  induction bs generalizing lo with
  | nil => cases hb
  | cons c bs ih =>
    have hcons : release b.addr (c :: bs) =
        (if c.addr = b.addr then { c with free := true } else c) :: release b.addr bs := rfl
    rw [hcons, chain_cons, headAddr_release]
    -- the block released is the first one, or lies behind it
    rcases List.mem_cons.mp hb with rfl | hb'
    · rw [if_pos rfl]
      refine ⟨⟨?_, ?_, ?_⟩, ?_⟩
      · simpa using hm.1.size
      · simpa using hm.1.next
      · exact blkFree_setFree m b.addr (by decide)
      · -- no block behind has the address
        have hbehind (d : Block) (hd : d ∈ bs) : b.stop sizeofHeader ≤ d.addr :=
          (ht.2.bounds hd).1
        rw [release_of_forall_ne fun d hd => by
          have := hbehind d hd
          simp only [Block.stop, sizeofHeader] at this
          omega]
        refine hm.2.congr fun d hd x hx => setFree_eqOn m b.addr 1 ?_
        have := hbehind d hd
        simp only [Set.mem_Ico, Set.mem_compl_iff, Block.stop] at *
        omega
    · have hle := (ht.2.bounds hb').1
      have hne : c.addr ≠ b.addr := by
        simp only [Block.stop, sizeofHeader] at hle
        omega
      rw [if_neg hne]
      refine ⟨hm.1.congr fun x hx => setFree_eqOn m b.addr 1 ?_, ih hm.2 ht.2 hb'⟩
      simp only [Set.mem_Ico, Set.mem_compl_iff, Block.stop] at *
      omega

end KwsSoc.Heap
