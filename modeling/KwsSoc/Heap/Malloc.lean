import KwsSoc.Lib.Memory

/-! # The heap of the firmware, function by function

`test/common/malloc.c` on RV32: one singly linked list of all blocks in address order, first fit
with splitting, and whole-list coalescing on every `free`. Headers and payloads are bytes of one
memory, a header being three words (`size`, `next`, `free`). Addresses and sizes are numbers below
`2^32`; `u32` is written where the C arithmetic can wrap. The loops over the list stop with `none`
after `loopBound` rounds, so that a cyclic list would show. -/

namespace KwsSoc.Heap

open ByteMemory

/-! ## 32-bit arithmetic -/

/-- Wrap to 32 bits. -/
def u32 (n : ℕ) : ℕ := n % 2 ^ 32

/-- Unsigned subtraction. -/
def sub32 (a b : ℕ) : ℕ := (a + 2 ^ 32 - b) % 2 ^ 32

def NULL : ℕ := 0

def ALIGNMENT : ℕ := 8

def STACK_GUARD_BYTES : ℕ := 256

/-- `v & ~(a - 1)`, for a power of two `a`. -/
def alignDown (v a : ℕ) : ℕ := v - v % a

/-- `align_up_uintptr`: `(v + (a - 1)) & ~(a - 1)`. -/
def alignUp (v a : ℕ) : ℕ := alignDown (u32 (v + (a - 1))) a

/-! ## Headers -/

/-- `sizeof(block_header_t)`. -/
def sizeofHeader : ℕ := 12

/-- `blk->size`. -/
def blkSize (m : Mem) (blk : ℕ) : ℕ := m.word blk

/-- `blk->next`. -/
def blkNext (m : Mem) (blk : ℕ) : ℕ := m.word (blk + 4)

/-- `blk->free`. -/
def blkFree (m : Mem) (blk : ℕ) : ℕ := m.word (blk + 8)

def setSize (m : Mem) (blk v : ℕ) : Mem := m.setWord blk v

def setNext (m : Mem) (blk v : ℕ) : Mem := m.setWord (blk + 4) v

def setFree (m : Mem) (blk v : ℕ) : Mem := m.setWord (blk + 8) v

/-! ## The state and its set-up -/

/-- Memory and the static variables `free_list`, `heap_lo` and `heap_hi`. -/
structure State where
  mem : Mem
  freeList : ℕ
  heapLo : ℕ
  heapHi : ℕ

/-- The linker symbols `_ebss` and `_stack_top`, with what is true of every image: the static
variables of the allocator lie in `.bss`, below `_ebss`. Between the aligned end of `.bss` and the
stack guard is room for more than a header. -/
structure Layout where
  statics : ℕ
  ebss : ℕ
  stackTop : ℕ
  inBss : statics + 12 ≤ ebss
  stackTop_lt : stackTop < 2 ^ 32
  room : alignDown (ebss + (ALIGNMENT - 1)) ALIGNMENT + sizeofHeader <
    alignDown (if STACK_GUARD_BYTES < stackTop then stackTop - STACK_GUARD_BYTES else stackTop)
      ALIGNMENT

namespace Layout

/-- `heap_lo` once it is set. -/
def heapLo (L : Layout) : ℕ := alignUp L.ebss ALIGNMENT

/-- `heap_hi` once it is set. -/
def heapHi (L : Layout) : ℕ :=
  alignDown (if STACK_GUARD_BYTES < L.stackTop then L.stackTop - STACK_GUARD_BYTES
    else L.stackTop) ALIGNMENT

end Layout

/-- `init_heap_once`. -/
def initHeapOnce (L : Layout) (s : State) : State :=
  if s.freeList ≠ NULL then s
  else if L.heapHi ≤ u32 (L.heapLo + sizeofHeader) then
    ⟨s.mem, NULL, L.heapLo, L.heapHi⟩
  else
    let m := setSize s.mem L.heapLo (sub32 (sub32 L.heapHi L.heapLo) sizeofHeader)
    let m := setNext m L.heapLo NULL
    let m := setFree m L.heapLo 1
    ⟨m, L.heapLo, L.heapLo, L.heapHi⟩

/-! ## Splitting and coalescing -/

/-- `split_block`. -/
def splitBlock (m : Mem) (blk need : ℕ) : Mem :=
  let remain := sub32 (blkSize m blk) need
  if remain ≤ sizeofHeader + ALIGNMENT then m
  else
    let newBlk := u32 (blk + sizeofHeader + need)
    let m := setSize m newBlk (sub32 remain sizeofHeader)
    let m := setNext m newBlk (blkNext m blk)
    let m := setFree m newBlk 1
    let m := setSize m blk need
    setNext m blk newBlk

/-- The list of a 32-bit address space has fewer blocks than this. -/
def loopBound : ℕ := 2 ^ 32

/-- The loop of `coalesce_all`, from `blk` on. -/
def coalesceLoop : ℕ → Mem → ℕ → Option Mem
  | 0, _, _ => none
  | n + 1, m, blk =>
    if blk ≠ NULL ∧ blkNext m blk ≠ NULL then
      let blkEnd := u32 (blk + sizeofHeader + blkSize m blk)
      if blkFree m blk ≠ 0 ∧ blkFree m (blkNext m blk) ≠ 0 ∧ blkEnd = blkNext m blk then
        let m := setSize m blk
          (u32 (blkSize m blk + (sizeofHeader + blkSize m (blkNext m blk))))
        let m := setNext m blk (blkNext m (blkNext m blk))
        coalesceLoop n m blk
      else coalesceLoop n m (blkNext m blk)
    else some m

/-- `coalesce_all`. -/
def coalesceAll (s : State) : Option State :=
  (coalesceLoop loopBound s.mem s.freeList).map fun m => { s with mem := m }

/-! ## The allocator's interface -/

/-- The loop of `malloc`, from `blk` on: memory and the pointer it returns. -/
def mallocLoop (need : ℕ) : ℕ → Mem → ℕ → Option (Mem × ℕ)
  | 0, _, _ => none
  | n + 1, m, blk =>
    if blk ≠ NULL then
      if blkFree m blk ≠ 0 ∧ need ≤ blkSize m blk then
        let m := splitBlock m blk need
        some (setFree m blk 0, u32 (blk + sizeofHeader))
      else mallocLoop need n m (blkNext m blk)
    else some (m, NULL)

/-- `malloc`. -/
def malloc (L : Layout) (s : State) (size : ℕ) : Option (State × ℕ) :=
  if size = 0 then some (s, NULL)
  else
    let s := initHeapOnce L s
    if s.freeList = NULL then some (s, NULL)
    else
      let need := alignUp size ALIGNMENT
      (mallocLoop need loopBound s.mem s.freeList).map fun r => ({ s with mem := r.1 }, r.2)

/-- `free`. -/
def free (s : State) (ptr : ℕ) : Option State :=
  if ptr = NULL then some s
  else
    let blk := sub32 ptr sizeofHeader
    coalesceAll { s with mem := setFree s.mem blk 1 }

/-- The loop of `safe_size_mul`: `b` additions of `a`; `none` is the return value 0. -/
def mulLoop (a : ℕ) : ℕ → ℕ → Option ℕ
  | 0, acc => some acc
  | b + 1, acc => if acc > 2 ^ 32 - 1 - a then none else mulLoop a b (u32 (acc + a))

/-- `safe_size_mul`. -/
def safeSizeMul (a b : ℕ) : Option ℕ := if a = 0 ∨ b = 0 then some 0 else mulLoop a b 0

/-- `calloc`. -/
def calloc (L : Layout) (s : State) (nmemb size : ℕ) : Option (State × ℕ) :=
  if nmemb = 0 ∨ size = 0 then malloc L s 0
  else
    match safeSizeMul nmemb size with
    | none => some (s, NULL)
    | some total => do
      let (s, p) ← malloc L s total
      if p = NULL then some (s, NULL)
      else some ({ s with mem := s.mem.update p (fun _ _ => 0) total }, p)

/-- `realloc`. -/
def realloc (L : Layout) (s : State) (ptr size : ℕ) : Option (State × ℕ) :=
  if ptr = NULL then malloc L s size
  else if size = 0 then (free s ptr).map fun s => (s, NULL)
  else
    let blk := sub32 ptr sizeofHeader
    if size ≤ blkSize s.mem blk then some (s, ptr)
    else do
      let (s, newp) ← malloc L s size
      if newp = NULL then some (s, NULL)
      else
        let copyN := blkSize s.mem blk
        let s ← free { s with mem := s.mem.update newp (fun m i => m (ptr + i)) copyN } ptr
        some (s, newp)

end KwsSoc.Heap
