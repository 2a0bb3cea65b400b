import Mathlib.Tactic

/-! # The strict-priority AHB-Lite arbiter

A model of `busfabric/ahbl_arbiter.v` for any number of ports, with `common/onehot_priority.v` and
`common/onehot_mux.v`: the request buffers, the data-phase grant and their update at a clock edge.
`fair_priority` is not instantiated in the design and is left out. -/

namespace KwsSoc.Bus

/-- The address-phase signals of one master. -/
@[ext] structure Req where
  haddr : BitVec 32
  hwrite : Bool
  htrans : BitVec 2
  hsize : BitVec 3
  hburst : BitVec 3
  hprot : BitVec 4
  hmaster : BitVec 8
  hmastlock : Bool
  hexcl : Bool
  deriving DecidableEq

namespace Req

/-- All signals low, `HTRANS = IDLE` among them. -/
def zero : Req := ⟨0, false, 0, 0, 0, 0, 0, false, false⟩

/-- `HTRANS` is `NONSEQ` or `SEQ`. -/
def active (r : Req) : Bool := r.htrans.getLsbD 1

end Req

/-! ## Priority and multiplexing -/

section OneHot

variable {n : ℕ}

/-- `onehot_priority`: the lowest set bit. -/
def onehotPriority (x : Fin n → Bool) : Fin n → Bool :=
  fun i => x i && decide (∀ k, k < i → x k = false)

/-- `|x`. -/
def anyBit (x : Fin n → Bool) : Bool := decide (∃ i, x i = true)

/-- `onehot_mux` of words: the disjunction of the selected inputs. -/
def onehotMux {w : ℕ} (x : Fin n → BitVec w) (sel : Fin n → Bool) : BitVec w :=
  (List.finRange n).foldl (fun acc i => acc ||| (if sel i then x i else 0)) 0

/-- `onehot_mux` of single wires. -/
def onehotMuxBit (x : Fin n → Bool) (sel : Fin n → Bool) : Bool := anyBit fun i => x i && sel i

/-- `onehot_mux`, signal by signal. -/
def onehotMuxReq (x : Fin n → Req) (sel : Fin n → Bool) : Req where
  haddr := onehotMux (fun i => (x i).haddr) sel
  hwrite := onehotMuxBit (fun i => (x i).hwrite) sel
  htrans := onehotMux (fun i => (x i).htrans) sel
  hsize := onehotMux (fun i => (x i).hsize) sel
  hburst := onehotMux (fun i => (x i).hburst) sel
  hprot := onehotMux (fun i => (x i).hprot) sel
  hmaster := onehotMux (fun i => (x i).hmaster) sel
  hmastlock := onehotMuxBit (fun i => (x i).hmastlock) sel
  hexcl := onehotMuxBit (fun i => (x i).hexcl) sel

/-- At most one bit is set. -/
def AtMostOne (x : Fin n → Bool) : Prop := ∀ i j, x i = true → x j = true → i = j

theorem onehotPriority_iff {x : Fin n → Bool} {i : Fin n} :
    onehotPriority x i = true ↔ x i = true ∧ ∀ k, k < i → x k = false := by
  simp [onehotPriority]

/-- The priority encoder grants at most one request. -/
theorem atMostOne_onehotPriority (x : Fin n → Bool) : AtMostOne (onehotPriority x) := by
  intro i j hi hj
  obtain ⟨hxi, hbi⟩ := onehotPriority_iff.mp hi
  obtain ⟨hxj, hbj⟩ := onehotPriority_iff.mp hj
  rcases lt_trichotomy i j with h | h | h
  · rw [hbj i h] at hxi
    cases hxi
  · exact h
  · rw [hbi j h] at hxj
    cases hxj

theorem anyBit_iff {x : Fin n → Bool} : anyBit x = true ↔ ∃ i, x i = true := by simp [anyBit]

/-- A one-hot selection of wires. -/
theorem onehotMuxBit_eq (x : Fin n → Bool) {sel : Fin n → Bool} (h : AtMostOne sel) {i : Fin n}
    (hi : sel i = true) : onehotMuxBit x sel = x i := by
  rw [Bool.eq_iff_iff, onehotMuxBit, anyBit_iff]
  constructor
  · rintro ⟨j, hj⟩
    rw [Bool.and_eq_true] at hj
    rw [h i j hi hj.2]
    exact hj.1
  · intro hx
    exact ⟨i, by rw [hx, hi]; rfl⟩

/-- A one-hot selection of words. -/
theorem onehotMux_eq {w : ℕ} (x : Fin n → BitVec w) {sel : Fin n → Bool} (h : AtMostOne sel)
    {i : Fin n} (hi : sel i = true) : onehotMux x sel = x i := by
  have hfold : ∀ (l : List (Fin n)) (acc : BitVec w), (acc = 0 ∨ acc = x i) →
      l.foldl (fun acc k => acc ||| (if sel k then x k else 0)) acc =
        if acc = x i ∨ i ∈ l then x i else 0 := by
    intro l
    induction l with
    | nil =>
      intro acc hacc
      rcases hacc with rfl | rfl <;> simp
    | cons k l ih =>
      intro acc hacc
      by_cases hk : sel k = true
      · obtain rfl := h k i hk hi
        have hor : acc ||| (if sel k then x k else 0) = x k := by
          rw [if_pos hk]
          rcases hacc with rfl | rfl <;> simp
        rw [List.foldl_cons, hor, ih _ (Or.inr rfl)]
        simp
      · have hne : i ≠ k := fun h' => hk (h' ▸ hi)
        have hor : acc ||| (if sel k then x k else 0) = acc := by
          rw [if_neg hk]
          simp
        rw [List.foldl_cons, hor, ih _ hacc]
        simp [hne]
  rw [onehotMux, hfold _ _ (Or.inl rfl), if_pos (Or.inr (List.mem_finRange i))]

/-- A one-hot selection of address phases. -/
theorem onehotMuxReq_eq (x : Fin n → Req) {sel : Fin n → Bool} (h : AtMostOne sel) {i : Fin n}
    (hi : sel i = true) : onehotMuxReq x sel = x i := by
  ext1 <;> simp only [onehotMuxReq, onehotMux_eq _ h hi, onehotMuxBit_eq _ h hi]

end OneHot

/-! ## The arbiter -/

/-- Registers of an `n`-port arbiter. -/
structure Arbiter (n : ℕ) where
  bufValid : Fin n → Bool
  buf : Fin n → Req
  mastGntD : Fin n → Bool

/-- What the ports drive in one cycle: `src_hready` and the address phases. -/
structure ArbiterIn (n : ℕ) where
  srcHready : Fin n → Bool
  src : Fin n → Req

namespace Arbiter

variable {n : ℕ}

/-- Reset. -/
def reset (n : ℕ) : Arbiter n := ⟨fun _ => false, fun _ => .zero, fun _ => false⟩

/-- The buffered address phase if there is one, else the live one. -/
def actual (a : Arbiter n) (x : ArbiterIn n) (i : Fin n) : Req :=
  if a.bufValid i then a.buf i else x.src i

/-- `mast_req_a`. -/
def mastReqA (connMask : Fin n → Bool) (a : Arbiter n) (x : ArbiterIn n) (i : Fin n) : Bool :=
  (a.actual x i).active && connMask i

/-- `mast_gnt_a`. -/
def mastGntA (connMask : Fin n → Bool) (a : Arbiter n) (x : ArbiterIn n) : Fin n → Bool :=
  onehotPriority (a.mastReqA connMask x)

/-- `dst_hready`. -/
def dstHready (a : Arbiter n) (x : ArbiterIn n) : Bool :=
  if anyBit a.mastGntD then anyBit fun i => x.srcHready i && a.mastGntD i else true

/-- `buf_wen`. -/
def bufWen (connMask : Fin n → Bool) (a : Arbiter n) (x : ArbiterIn n) (i : Fin n) : Bool :=
  (a.mastReqA connMask x i && x.srcHready i) && !(a.mastGntA connMask x i && a.dstHready x)

/-- One clock edge; a buffer write wins over the clearing of its valid bit. -/
def step (connMask : Fin n → Bool) (a : Arbiter n) (x : ArbiterIn n) : Arbiter n where
  bufValid i :=
    if a.bufWen connMask x i then true
    else if a.dstHready x then a.bufValid i && !a.mastGntA connMask x i else a.bufValid i
  buf i := if a.bufWen connMask x i then x.src i else a.buf i
  mastGntD := if a.dstHready x then a.mastGntA connMask x else a.mastGntD

/-- `src_hready_resp`. -/
def srcHreadyResp (a : Arbiter n) (dstHreadyResp : Bool) (i : Fin n) : Bool :=
  !(a.bufValid i || a.mastGntD i) || (a.mastGntD i && dstHreadyResp)

/-- `src_hresp`. -/
def srcHresp (a : Arbiter n) (dstHresp : Bool) (i : Fin n) : Bool := a.mastGntD i && dstHresp

/-- The address phase driven to the slave. -/
def dstReq (connMask : Fin n → Bool) (a : Arbiter n) (x : ArbiterIn n) : Req :=
  onehotMuxReq (a.actual x) (a.mastGntA connMask x)

/-- The write data driven to the slave. -/
def dstHwdata (a : Arbiter n) (srcHwdata : Fin n → BitVec 32) : BitVec 32 :=
  onehotMux srcHwdata a.mastGntD

end Arbiter

end KwsSoc.Bus
