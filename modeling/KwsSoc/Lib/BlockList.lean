import Mathlib.Tactic

/-! # First-fit allocation on a tiling of blocks

An allocator without a separate free list keeps all its blocks, used and free, in one list in
address order. A block is a header of `h` bytes and a payload behind it. This file states such an
allocator on plain lists, with any header size `h` and any bound `k ≥ h` on the remainder that is
not worth splitting off:

* **`Tiles h lo hi bs`** — the blocks cover `[lo, hi)` exactly, in order.
* **`Apart bs`** — no two neighbours are both free.
* **`firstFit`**, **`release`**, **`coalesce`** — the operations; each keeps the tiling, and the
  last restores `Apart`. `used_firstFit`, `used_release` and `used_coalesce` say what becomes of
  the used blocks, and `eq_single` that a heap without used blocks is one free block. -/

/-- A block: the address of its header, the size of its payload, and whether it is free. -/
structure Block where
  addr : ℕ
  size : ℕ
  free : Bool
  deriving DecidableEq, Repr

namespace Block

variable (h : ℕ)

/-- First address of the payload. -/
def payload (b : Block) : ℕ := b.addr + h

/-- First address behind the block. -/
def stop (b : Block) : ℕ := b.addr + h + b.size

/-- Two neighbours as one free block. -/
def merge (b c : Block) : Block := ⟨b.addr, b.size + (h + c.size), true⟩

/-- A free block taken for a request of `need` bytes: split, unless the remainder is at most `k`. -/
def place (k need : ℕ) (b : Block) : List Block :=
  if b.size - need ≤ k then [{ b with free := false }]
  else [⟨b.addr, need, false⟩, ⟨b.addr + h + need, b.size - need - h, true⟩]

end Block

namespace BlockList

variable {h k : ℕ}

/-- The blocks cover `[lo, hi)` exactly, in address order. -/
def Tiles (h : ℕ) : ℕ → ℕ → List Block → Prop
  | lo, hi, [] => lo = hi
  | lo, hi, b :: bs => b.addr = lo ∧ Tiles h (b.stop h) hi bs

/-- No two neighbours are both free. -/
def Apart (bs : List Block) : Prop := bs.IsChain fun b c => ¬ (b.free = true ∧ c.free = true)

/-- First fit: the first free block that is large enough is placed; its address comes back. -/
def firstFit (h k need : ℕ) : List Block → Option (ℕ × List Block)
  | [] => none
  | b :: bs =>
    if b.free = true ∧ need ≤ b.size then some (b.addr, b.place h k need ++ bs)
    else (firstFit h k need bs).map fun r => (r.1, b :: r.2)

/-- The block at `a` becomes free. -/
def release (a : ℕ) (bs : List Block) : List Block :=
  bs.map fun b => if b.addr = a then { b with free := true } else b

/-- Merge free neighbours, from the front; a merged block is tried again. -/
def coalesce (h : ℕ) : List Block → List Block
  | [] => []
  | [b] => [b]
  | b :: c :: rest =>
    if b.free = true ∧ c.free = true then coalesce h (b.merge h c :: rest)
    else b :: coalesce h (c :: rest)
termination_by bs => bs.length

/-! ## Tilings -/

section Tilings

variable {lo hi : ℕ} {b : Block} {bs : List Block}

@[simp] theorem tiles_cons :
    Tiles h lo hi (b :: bs) ↔ b.addr = lo ∧ Tiles h (b.stop h) hi bs := Iff.rfl

theorem Tiles.le (ht : Tiles h lo hi bs) : lo ≤ hi := by
  induction bs generalizing lo with
  | nil => exact Nat.le_of_eq ht
  | cons b bs ih =>
    have := ih ht.2
    have := ht.1
    simp only [Block.stop] at *
    omega

/-- A block of a tiling lies within its bounds. -/
theorem Tiles.bounds (ht : Tiles h lo hi bs) (hb : b ∈ bs) : lo ≤ b.addr ∧ b.stop h ≤ hi := by
  induction bs generalizing lo with
  | nil => cases hb
  | cons c bs ih =>
    rcases List.mem_cons.mp hb with rfl | hb
    · exact ⟨ht.1.ge, ht.2.le⟩
    · have := ih ht.2 hb
      have := ht.1
      simp only [Block.stop] at *
      omega

/-- Every block of a tiling takes at least a header. -/
theorem Tiles.length_le (ht : Tiles h lo hi bs) : lo + h * bs.length ≤ hi := by
  induction bs generalizing lo with
  | nil => exact Nat.le_of_eq ht
  | cons b bs ih =>
    have := ih ht.2
    have := ht.1
    rw [List.length_cons, Nat.mul_succ]
    simp only [Block.stop] at *
    omega

/-- The blocks of a tiling follow one another. -/
theorem Tiles.pairwise (ht : Tiles h lo hi bs) : bs.Pairwise fun b c => b.stop h ≤ c.addr := by
  induction bs generalizing lo with
  | nil => exact List.Pairwise.nil
  | cons b bs ih => exact List.pairwise_cons.mpr ⟨fun c hc => (ht.2.bounds hc).1, ih ht.2⟩

/-- Blocks of a tiling are equal, or one lies before the other. -/
theorem Tiles.eq_or_apart {c : Block} (ht : Tiles h lo hi bs) (hb : b ∈ bs) (hc : c ∈ bs) :
    b = c ∨ b.stop h ≤ c.addr ∨ c.stop h ≤ b.addr := by
  induction bs generalizing lo with
  | nil => cases hb
  | cons a l ih =>
    rcases List.mem_cons.mp hb with rfl | hb' <;> rcases List.mem_cons.mp hc with rfl | hc'
    · exact .inl rfl
    · exact .inr (.inl (ht.2.bounds hc').1)
    · exact .inr (.inr (ht.2.bounds hb').1)
    · exact ih ht.2 hb' hc'

/-- Only blocks of size 0 could share an address with another, so headers of positive size make
the address a key. -/
theorem Tiles.eq_of_addr {c : Block} (hpos : 0 < h) (ht : Tiles h lo hi bs) (hb : b ∈ bs)
    (hc : c ∈ bs) (haddr : b.addr = c.addr) : b = c := by
  rcases ht.eq_or_apart hb hc with heq | hlt | hlt
  · exact heq
  · simp only [Block.stop] at hlt
    omega
  · simp only [Block.stop] at hlt
    omega

/-- The payloads of two blocks do not overlap. -/
theorem Tiles.payloads_apart {c : Block} (ht : Tiles h lo hi bs) (hb : b ∈ bs) (hc : c ∈ bs)
    (hbc : b ≠ c) : b.stop h ≤ c.payload h ∨ c.stop h ≤ b.payload h := by
  simp only [Block.payload]
  rcases ht.eq_or_apart hb hc with heq | hlt | hlt
  · exact absurd heq hbc
  · exact .inl (hlt.trans (Nat.le_add_right c.addr h))
  · exact .inr (hlt.trans (Nat.le_add_right b.addr h))

theorem tiles_append {xs ys : List Block} :
    Tiles h lo hi (xs ++ ys) ↔ ∃ mid, Tiles h lo mid xs ∧ Tiles h mid hi ys := by
  induction xs generalizing lo with
  | nil => simp [Tiles]
  | cons b xs ih =>
    simp only [List.cons_append, tiles_cons, ih]
    constructor
    · rintro ⟨hb, mid, hx, hy⟩
      exact ⟨mid, ⟨hb, hx⟩, hy⟩
    · rintro ⟨mid, ⟨hb, hx⟩, hy⟩
      exact ⟨hb, mid, hx, hy⟩

end Tilings

theorem apart_cons {b : Block} {bs : List Block} :
    Apart (b :: bs) ↔ (∀ c ∈ bs.head?, ¬ (b.free = true ∧ c.free = true)) ∧ Apart bs :=
  List.isChain_cons

/-! ## First fit -/

section FirstFit

variable {lo hi need p : ℕ} {b : Block} {bs bs' : List Block}

/-- A placed block covers what it covered before. -/
theorem tiles_place (hk : h ≤ k) (hneed : need ≤ b.size) :
    Tiles h b.addr (b.stop h) (b.place h k need) := by
  unfold Block.place
  split
  · exact ⟨rfl, rfl⟩
  · refine ⟨rfl, rfl, ?_⟩
    simp only [Tiles, Block.stop]
    omega

theorem firstFit_cons (need : ℕ) (b : Block) (bs : List Block) :
    firstFit h k need (b :: bs) =
      if b.free = true ∧ need ≤ b.size then some (b.addr, b.place h k need ++ bs)
      else (firstFit h k need bs).map fun r => (r.1, b :: r.2) := rfl

/-- The two ways first fit succeeds on a list. -/
theorem firstFit_cons_eq_some (heq : firstFit h k need (b :: bs) = some (p, bs')) :
    (b.free = true ∧ need ≤ b.size ∧ p = b.addr ∧ bs' = b.place h k need ++ bs) ∨
      ∃ cs, firstFit h k need bs = some (p, cs) ∧ bs' = b :: cs := by
  rw [firstFit_cons] at heq
  split at heq
  · next hfit =>
    cases heq
    exact .inl ⟨hfit.1, hfit.2, rfl, rfl⟩
  · obtain ⟨⟨q, cs⟩, hcs, hq⟩ := Option.map_eq_some_iff.mp heq
    cases hq
    exact .inr ⟨cs, hcs, rfl⟩

/-- First fit fails only when no free block is large enough. -/
theorem firstFit_eq_none :
    firstFit h k need bs = none ↔ ∀ b ∈ bs, b.free = true → b.size < need := by
  induction bs with
  | nil => simp [firstFit]
  | cons b bs ih =>
    rw [firstFit_cons]
    split
    · next hfit =>
      simp only [reduceCtorEq, List.mem_cons, forall_eq_or_imp, false_iff]
      intro hall
      exact absurd (hall.1 hfit.1) (by omega)
    · next hfit =>
      rw [Option.map_eq_none_iff, ih]
      simp only [List.mem_cons, forall_eq_or_imp, iff_and_self]
      intro _ hb
      have : ¬ need ≤ b.size := fun hle => hfit ⟨hb, hle⟩
      omega

/-- First fit keeps the tiling. -/
theorem tiles_firstFit (hk : h ≤ k) (ht : Tiles h lo hi bs)
    (heq : firstFit h k need bs = some (p, bs')) : Tiles h lo hi bs' := by
  induction bs generalizing lo bs' with
  | nil => cases heq
  | cons b bs ih =>
    rcases firstFit_cons_eq_some heq with ⟨-, hneed, -, rfl⟩ | ⟨cs, hcs, rfl⟩
    · refine tiles_append.mpr ⟨b.stop h, ?_, ht.2⟩
      rw [← ht.1]
      exact tiles_place hk hneed
    · exact ⟨ht.1, ih ht.2 hcs⟩

/-- First fit keeps free blocks apart: the remainder of a split lies between a used block and the
old neighbour of a free one. -/
theorem apart_firstFit (hbs : Apart bs) (heq : firstFit h k need bs = some (p, bs')) :
    Apart bs' ∧ ∀ c ∈ bs'.head?, c.free = true → ∃ c' ∈ bs.head?, c'.free = true := by
  induction bs generalizing bs' with
  | nil => cases heq
  | cons b bs ih =>
    obtain ⟨hhead, htail⟩ := apart_cons.mp hbs
    rcases firstFit_cons_eq_some heq with ⟨hfree, -, -, rfl⟩ | ⟨cs, hcs, rfl⟩
    · have hnext : ∀ c ∈ bs.head?, ¬ c.free = true := fun c hc hcf => hhead c hc ⟨hfree, hcf⟩
      unfold Block.place
      split
      · refine ⟨apart_cons.mpr ⟨fun c _ => by simp, htail⟩, ?_⟩
        simp
      · refine ⟨apart_cons.mpr ⟨fun c _ => by simp, apart_cons.mpr ⟨fun c hc => ?_, htail⟩⟩, ?_⟩
        · exact fun hboth => hnext c hc hboth.2
        · simp
    · obtain ⟨hcs', hhead'⟩ := ih htail hcs
      refine ⟨apart_cons.mpr ⟨fun c hc hboth => ?_, hcs'⟩, ?_⟩
      · obtain ⟨c', hc', hfree'⟩ := hhead' c hc hboth.2
        exact hhead c' hc' ⟨hboth.1, hfree'⟩
      · simp

/-- **What first fit does to the used blocks**: one is added, large enough, where a free block
was. -/
theorem used_firstFit (heq : firstFit h k need bs = some (p, bs')) :
    ∃ b ∈ bs, b.free = true ∧ b.addr = p ∧ ∃ n, need ≤ n ∧
      ∀ c, c ∈ bs' ∧ c.free = false ↔ c = ⟨p, n, false⟩ ∨ c ∈ bs ∧ c.free = false := by
  induction bs generalizing bs' with
  | nil => cases heq
  | cons b bs ih =>
    rcases firstFit_cons_eq_some heq with ⟨hfree, hneed, rfl, rfl⟩ | ⟨cs, hcs, rfl⟩
    · refine ⟨b, List.mem_cons_self, hfree, rfl, ?_⟩
      unfold Block.place
      split
      · refine ⟨b.size, hneed, fun c => ?_⟩
        simp only [List.cons_append, List.nil_append, List.mem_cons]
        constructor
        · rintro ⟨rfl | hc, hcf⟩
          · exact .inl rfl
          · exact .inr ⟨.inr hc, hcf⟩
        · rintro (rfl | ⟨rfl | hc, hcf⟩)
          · exact ⟨.inl rfl, rfl⟩
          · exact absurd (hfree.symm.trans hcf) (by decide)
          · exact ⟨.inr hc, hcf⟩
      · refine ⟨need, le_rfl, fun c => ?_⟩
        simp only [List.cons_append, List.nil_append, List.mem_cons]
        constructor
        · rintro ⟨rfl | rfl | hc, hcf⟩
          · exact .inl rfl
          · cases hcf
          · exact .inr ⟨.inr hc, hcf⟩
        · rintro (rfl | ⟨rfl | hc, hcf⟩)
          · exact ⟨.inl rfl, rfl⟩
          · exact absurd (hfree.symm.trans hcf) (by decide)
          · exact ⟨.inr (.inr hc), hcf⟩
    · obtain ⟨b', hb', hfree, haddr, n, hn, hused⟩ := ih hcs
      refine ⟨b', List.mem_cons_of_mem _ hb', hfree, haddr, n, hn, fun c => ?_⟩
      simp only [List.mem_cons]
      have := hused c
      tauto

end FirstFit

/-! ## Releasing and merging -/

section Release

variable {lo hi a : ℕ} {bs : List Block}

theorem tiles_release (a : ℕ) (ht : Tiles h lo hi bs) : Tiles h lo hi (release a bs) := by
  induction bs generalizing lo with
  | nil => exact ht
  | cons b bs ih =>
    have hstop : (if b.addr = a then { b with free := true } else b : Block).stop h = b.stop h := by
      split <;> rfl
    refine ⟨?_, ?_⟩
    · rw [← ht.1]
      dsimp only
      split <;> rfl
    · rw [hstop]
      exact ih ht.2

/-- A release of an address that no block has changes nothing. -/
theorem release_of_forall_ne {a : ℕ} (hne : ∀ b ∈ bs, b.addr ≠ a) : release a bs = bs := by
  induction bs with
  | nil => rfl
  | cons b bs ih =>
    have hb : b.addr ≠ a := hne b List.mem_cons_self
    have hrest : release a bs = bs := ih fun c hc => hne c (List.mem_cons_of_mem _ hc)
    simp only [release, List.map_cons, if_neg hb] at hrest ⊢
    rw [hrest]

/-- **What a release does to the used blocks**: the one at `a` is no longer among them. -/
theorem used_release (a : ℕ) (c : Block) :
    c ∈ release a bs ∧ c.free = false ↔ c ∈ bs ∧ c.free = false ∧ c.addr ≠ a := by
  simp only [release, List.mem_map]
  constructor
  · rintro ⟨⟨b, hb, rfl⟩, hfree⟩
    split at hfree
    · cases hfree
    · next hne =>
      rw [if_neg hne]
      exact ⟨hb, hfree, hne⟩
  · rintro ⟨hc, hfree, hne⟩
    exact ⟨⟨c, hc, if_neg hne⟩, hfree⟩

end Release

section Coalesce

variable {lo hi : ℕ} {bs : List Block}

theorem coalesce_cons_cons (b c : Block) (rest : List Block) :
    coalesce h (b :: c :: rest) =
      if b.free = true ∧ c.free = true then coalesce h (b.merge h c :: rest)
      else b :: coalesce h (c :: rest) := by rw [coalesce]

/-- Merging leaves the address of the first block and whether it is free. -/
theorem head_coalesce (bs : List Block) :
    (coalesce h bs).head?.map (fun b => (b.addr, b.free)) =
      bs.head?.map fun b => (b.addr, b.free) := by
  induction bs using coalesce.induct h with
  | case1 => rw [coalesce]
  | case2 b => rw [coalesce]
  | case3 b c rest hboth ih =>
    rw [coalesce_cons_cons, if_pos hboth, ih]
    simp [Block.merge, hboth.1]
  | case4 b c rest hnot ih =>
    rw [coalesce_cons_cons, if_neg hnot]
    rfl

/-- A merged block tiles what its two parts did. -/
theorem tiles_merge {b c : Block} {rest : List Block} (ht : Tiles h lo hi (b :: c :: rest)) :
    Tiles h lo hi (b.merge h c :: rest) := by
  have hstop : (b.merge h c).stop h = c.stop h := by
    have hc : c.addr = b.stop h := ht.2.1
    simp only [Block.stop, Block.merge] at hc ⊢
    omega
  refine ⟨ht.1, ?_⟩
  rw [hstop]
  exact ht.2.2

theorem tiles_coalesce (ht : Tiles h lo hi bs) : Tiles h lo hi (coalesce h bs) := by
  induction bs using coalesce.induct h generalizing lo with
  | case1 => rwa [coalesce]
  | case2 b => rwa [coalesce]
  | case3 b c rest hboth ih =>
    rw [coalesce_cons_cons, if_pos hboth]
    exact ih (tiles_merge ht)
  | case4 b c rest hnot ih =>
    rw [coalesce_cons_cons, if_neg hnot]
    exact ⟨ht.1, ih ht.2⟩

/-- **Merging leaves no free neighbours.** -/
theorem apart_coalesce (bs : List Block) : Apart (coalesce h bs) := by
  induction bs using coalesce.induct h with
  | case1 =>
    rw [coalesce]
    exact List.IsChain.nil
  | case2 b =>
    rw [coalesce]
    exact List.isChain_singleton b
  | case3 b c rest hboth ih => rwa [coalesce_cons_cons, if_pos hboth]
  | case4 b c rest hnot ih =>
    rw [coalesce_cons_cons, if_neg hnot]
    refine apart_cons.mpr ⟨fun d hd hfree => hnot ⟨hfree.1, ?_⟩, ih⟩
    -- the head of the merged rest is as free as `c` was
    have hhead := head_coalesce (h := h) (c :: rest)
    rw [hd] at hhead
    simp only [Option.map_some, List.head?_cons, Option.some.injEq, Prod.mk.injEq] at hhead
    exact hhead.2.symm.trans hfree.2

/-- **Merging leaves the used blocks alone.** -/
theorem used_coalesce (bs : List Block) (d : Block) :
    d ∈ coalesce h bs ∧ d.free = false ↔ d ∈ bs ∧ d.free = false := by
  induction bs using coalesce.induct h with
  | case1 => rw [coalesce]
  | case2 b => rw [coalesce]
  | case3 b c rest hboth ih =>
    rw [coalesce_cons_cons, if_pos hboth, ih]
    simp only [List.mem_cons]
    constructor
    · rintro ⟨rfl | hd, hfree⟩
      · cases hfree
      · exact ⟨.inr (.inr hd), hfree⟩
    · rintro ⟨rfl | rfl | hd, hfree⟩
      · exact absurd (hboth.1.symm.trans hfree) (by decide)
      · exact absurd (hboth.2.symm.trans hfree) (by decide)
      · exact ⟨.inr hd, hfree⟩
  | case4 b c rest hnot ih =>
    rw [coalesce_cons_cons, if_neg hnot]
    simp only [List.mem_cons (b := b)] at ih ⊢
    tauto

end Coalesce

/-- **A heap without used blocks is one free block.** -/
theorem eq_single {lo hi : ℕ} {bs : List Block} (ht : Tiles h lo hi bs) (hbs : Apart bs)
    (hlt : lo < hi) (hfree : ∀ b ∈ bs, b.free = true) : bs = [⟨lo, hi - lo - h, true⟩] := by
  match bs with
  | [] => exact absurd ht (by simp only [Tiles]; omega)
  | [b] =>
    obtain ⟨haddr, hstop⟩ := ht
    have hbfree := hfree b List.mem_cons_self
    simp only [Tiles, Block.stop] at hstop
    obtain ⟨addr, size, free⟩ := b
    simp only at haddr hstop hbfree
    subst haddr
    subst hbfree
    congr
    omega
  | b :: c :: rest =>
    have hb := hfree b List.mem_cons_self
    have hc := hfree c (List.mem_cons_of_mem _ List.mem_cons_self)
    exact absurd ⟨hb, hc⟩ ((apart_cons.mp hbs).1 c rfl)

end BlockList
