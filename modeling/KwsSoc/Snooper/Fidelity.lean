import KwsSoc.Snooper.BusSnooper

/-! # What the snooper's ring records

The snooper beside a monitor of the port it taps: which transfer is in its data phase, and which
transfers ended while the snooper was enabled (`Mon.step`). `Mon.run_faithful`: the ring holds the
last 16 of them, provided no stray slot is committed. A slot is stray when it holds something else
than the transfer in its data phase: an address phase that was shown during a wait state and not
accepted, or a transfer that ended while the snooper was disabled. -/

namespace KwsSoc.Snooper

open SyncMachine

/-! ## The monitored port -/

/-- A transfer in its data phase; `watched` when its address phase was accepted by an enabled
snooper and no reset came since. -/
structure Transfer where
  aphase : APhase
  watched : Bool

/-- The snooper and the monitor. -/
structure Mon where
  snooper : Regs
  /-- The transfer in its data phase. -/
  dp : Option Transfer
  /-- The transfers recorded since the last reset. -/
  log : List Entry
  /-- The slot holds no transfer that the monitor watches. -/
  stray : Bool

namespace Mon

def start (ring : BitVec 4 → Entry) : Mon := ⟨Regs.reset ring, none, [], false⟩

/-- A watched transfer is in its data phase. -/
def watching (m : Mon) : Bool := m.dp.any (·.watched)

/-- The inputs as the snooper sees them: `hready` is low in data phases only. -/
def tapped (m : Mon) (x : Inputs) : Inputs := { x with hready := m.dp.isNone || x.hready }

/-- The transfer in its data phase after a cycle. -/
def nextDp (m : Mon) (x : Inputs) : Option Transfer :=
  if x.hready then
    if x.aphase.htrans.getLsbD 1 then some ⟨x.aphase, m.snooper.enable && !x.resetWen⟩ else none
  else m.dp.map fun t => { t with watched := t.watched && !x.resetWen }

/-- The record of the transfer that ends in a cycle. -/
def ended (m : Mon) (x : Inputs) : List Entry :=
  match m.dp with
  | some ⟨a, true⟩ =>
    if x.hready && m.snooper.enable then [Entry.of a x.dphase m.snooper.cycleCtr] else []
  | _ => []

/-- The slot becomes stray: it takes an address phase that is not accepted, or the transfer in it
ends while the snooper is disabled. -/
def strays (m : Mon) (x : Inputs) : Bool :=
  (m.snooper.enable && x.aphase.htrans.getLsbD 1 && !x.hready && !m.watching) ||
    (m.watching && x.hready && !m.snooper.enable)

/-- A cycle, `x` being what the snooper sees. -/
def edge (m : Mon) (x : Inputs) : Mon where
  snooper := m.snooper.step x
  dp := m.nextDp x
  log := if x.resetWen then [] else m.log ++ m.ended x
  stray := !x.resetWen && (m.stray || m.strays x)

/-- A cycle. -/
def step (m : Mon) (x : Inputs) : Mon := m.edge (m.tapped x)

/-! ## Fidelity -/

/-- The ring in head order is the last 16 transfers, and `count` is how many they are. -/
structure Faithful (m : Mon) : Prop where
  count : m.snooper.count.toNat = min N_ENTRIES m.log.length
  ring : m.snooper.readRing = m.log.drop (m.log.length - N_ENTRIES)

/-- No stray slot is committed: the cycle that would commit it resets the snooper. -/
def Ok (m : Mon) (x : Inputs) : Prop :=
  m.stray = true → m.snooper.enable = true → (m.tapped x).hready = true → x.resetWen = true

instance (m : Mon) (x : Inputs) : Decidable (m.Ok x) := by
  unfold Ok
  infer_instance

/-- The slot against the monitor. -/
structure SlotInv (m : Mon) : Prop where
  watched : ∀ a, m.dp = some ⟨a, true⟩ → m.snooper.pendVld = true ∧ m.snooper.pend = a
  pendVld : m.snooper.pendVld = true → m.watching = true ∨ m.stray = true
  stray : m.stray = true → m.snooper.pendVld = true ∧ m.watching = false

/-- The ring against the monitor. -/
structure RingInv (m : Mon) : Prop where
  head : m.snooper.head = BitVec.ofNat 4 m.log.length
  count : m.snooper.count.toNat = min N_ENTRIES m.log.length
  ring : StreamRing.Holds N_ENTRIES (fun k => some (m.snooper.ring (BitVec.ofNat 4 k)))
    (fun k => m.log[k]?) m.log.length

/-! ## One cycle -/

theorem watching_iff (m : Mon) : m.watching = true ↔ ∃ a, m.dp = some ⟨a, true⟩ := by
  rw [watching, Option.any_eq_true]
  constructor
  · rintro ⟨⟨a, w⟩, hdp, hw⟩
    exact ⟨a, by rw [hdp, show w = true from hw]⟩
  · rintro ⟨a, hdp⟩
    exact ⟨⟨a, true⟩, hdp, rfl⟩

/-- An enabled snooper at the end of a data phase: the slot is committed exactly when the transfer
is watched. -/
theorem SlotInv.pendVld_eq {m : Mon} (h : SlotInv m) (hs : m.stray = false) :
    m.snooper.pendVld = m.watching := by
  cases hp : m.snooper.pendVld with
  | false =>
    cases hw : m.watching with
    | false => rfl
    | true =>
      obtain ⟨a, ha⟩ := (watching_iff m).mp hw
      rw [(h.watched a ha).1] at hp
      exact hp.symm
  | true =>
    rcases h.pendVld hp with hw | hs'
    · exact hw.symm
    · rw [hs] at hs'
      exact absurd hs' Bool.false_ne_true

/-- A reset empties the slot. -/
theorem SlotInv.edge_reset {m : Mon} {x : Inputs} (hr : x.resetWen = true) :
    SlotInv (m.edge x) := by
  have hp : (m.edge x).snooper.pendVld = false := by
    show (m.snooper.step x).pendVld = false
    rw [(Regs.step_slot _ x).1, hr]
    rfl
  have hst : (m.edge x).stray = false := by simp [Mon.edge, hr]
  -- a transfer in its data phase is no longer watched
  have hdp (a : APhase) : (m.edge x).dp ≠ some ⟨a, true⟩ := by
    show m.nextDp x ≠ _
    rw [nextDp, hr]
    cases hh : x.hready <;> cases ht : x.aphase.htrans.getLsbD 1 <;> cases hd : m.dp <;> simp
  refine ⟨fun a ha => absurd ha (hdp a), fun h => ?_, fun h => ?_⟩
  · rw [hp] at h
    exact absurd h Bool.false_ne_true
  · rw [hst] at h
    exact absurd h Bool.false_ne_true

/-- A wait state: the slot may take the address phase that is shown. -/
theorem SlotInv.edge_wait {m : Mon} {x : Inputs} (h : SlotInv m) (hr : x.resetWen = false)
    (hh : x.hready = false) : SlotInv (m.edge x) := by
  have hdp : (m.edge x).dp = m.dp := by
    show m.nextDp x = m.dp
    cases hd : m.dp <;> simp [nextDp, hr, hh, hd]
  have hw : (m.edge x).watching = m.watching := by rw [watching, watching, hdp]
  have hst : (m.edge x).stray = (m.stray ||
      (m.snooper.enable && x.aphase.htrans.getLsbD 1 && !m.watching)) := by
    simp [Mon.edge, strays, hr, hh]
  have hc : m.snooper.commit x = false := by simp [Regs.commit, hh]
  have hl : m.snooper.latchAphase x =
      (m.snooper.enable && x.aphase.htrans.getLsbD 1 && !m.snooper.pendVld) := by
    simp [Regs.latchAphase, hh]
  have hp : (m.edge x).snooper.pendVld = (m.snooper.latchAphase x || m.snooper.pendVld) := by
    show (m.snooper.step x).pendVld = _
    simp [(Regs.step_slot _ x).1, hr, hc]
  have hpend : (m.edge x).snooper.pend =
      if m.snooper.latchAphase x then x.aphase else m.snooper.pend := by
    show (m.snooper.step x).pend = _
    simp [(Regs.step_slot _ x).2, hr]
  -- a slot in use takes no other address phase
  refine ⟨fun a ha => ?_, fun hv => ?_, fun hv => ?_⟩
  · rw [hdp] at ha
    obtain ⟨hv, ha'⟩ := h.watched a ha
    rw [hp, hpend, hl, hv]
    simp [ha']
  · rw [hp, hl] at hv
    rw [hw, hst]
    have := h.pendVld
    grind
  · rw [hst] at hv
    rw [hp, hw, hl]
    have h1 := h.stray
    have h2 := h.pendVld
    grind

/-- A ready cycle of a disabled snooper: the slot keeps what it holds. -/
theorem SlotInv.edge_disabled {m : Mon} {x : Inputs} (h : SlotInv m) (hr : x.resetWen = false)
    (hh : x.hready = true) (he : m.snooper.enable = false) : SlotInv (m.edge x) := by
  have hp : (m.edge x).snooper.pendVld = m.snooper.pendVld := by
    show (m.snooper.step x).pendVld = _
    simp [(Regs.step_slot _ x).1, hr, Regs.commit, Regs.latchAphase, he]
  have hdp (a : APhase) : (m.edge x).dp ≠ some ⟨a, true⟩ := by
    show m.nextDp x ≠ _
    rw [nextDp, hh, he]
    cases ht : x.aphase.htrans.getLsbD 1 <;> simp
  have hw : (m.edge x).watching = false := by
    rw [← Bool.not_eq_true, watching_iff]
    rintro ⟨a, ha⟩
    exact hdp a ha
  have hst : (m.edge x).stray = (m.stray || m.watching) := by
    simp [Mon.edge, strays, hr, hh, he]
  -- whatever stays in the slot is stray from now on
  refine ⟨fun a ha => absurd ha (hdp a), fun hv => ?_, fun hv => ?_⟩
  · rw [hp] at hv
    rw [hst]
    have := h.pendVld hv
    grind
  · rw [hst, Bool.or_eq_true] at hv
    refine ⟨?_, hw⟩
    rw [hp]
    rcases hv with hs | hwm
    · exact (h.stray hs).1
    · obtain ⟨a, ha⟩ := (watching_iff m).mp hwm
      exact (h.watched a ha).1

/-- A ready cycle of an enabled snooper: the slot takes the address phase that is accepted. -/
theorem SlotInv.edge_enabled {m : Mon} {x : Inputs} (hr : x.resetWen = false)
    (hh : x.hready = true) (he : m.snooper.enable = true) (hs : m.stray = false) :
    SlotInv (m.edge x) := by
  have hl : m.snooper.latchAphase x = x.aphase.htrans.getLsbD 1 := by
    simp [Regs.latchAphase, he, hh]
  have hp : (m.edge x).snooper.pendVld = x.aphase.htrans.getLsbD 1 := by
    show (m.snooper.step x).pendVld = _
    simp [(Regs.step_slot _ x).1, hr, hl, Regs.commit, he, hh]
  have hpend : (m.edge x).snooper.pend =
      if x.aphase.htrans.getLsbD 1 then x.aphase else m.snooper.pend := by
    show (m.snooper.step x).pend = _
    simp [(Regs.step_slot _ x).2, hr, hl]
  have hdp : (m.edge x).dp = if x.aphase.htrans.getLsbD 1 then some ⟨x.aphase, true⟩ else none := by
    show m.nextDp x = _
    simp [nextDp, hr, hh, he]
  have hst : (m.edge x).stray = false := by simp [Mon.edge, strays, hr, hh, he, hs]
  -- slot and monitor take the same address phase
  refine ⟨fun a ha => ?_, fun hv => ?_, fun hv => ?_⟩
  · rw [hdp] at ha
    rw [hp, hpend]
    grind
  · rw [hp] at hv
    left
    rw [watching, hdp, if_pos hv]
    rfl
  · rw [hst] at hv
    exact absurd hv Bool.false_ne_true

/-- **One cycle keeps the slot.** -/
theorem SlotInv.edge {m : Mon} {x : Inputs} (h : SlotInv m)
    (hok : m.stray = true → m.snooper.enable = true → x.hready = true → x.resetWen = true) :
    SlotInv (m.edge x) := by
  cases hr : x.resetWen with
  | true => exact SlotInv.edge_reset hr
  | false =>
    cases hh : x.hready with
    | false => exact h.edge_wait hr hh
    | true =>
      cases he : m.snooper.enable with
      | false => exact h.edge_disabled hr hh he
      | true =>
        have hs : m.stray = false := by
          by_contra hs
          rw [hok (by simpa using hs) he hh] at hr
          exact absurd hr.symm Bool.false_ne_true
        exact SlotInv.edge_enabled hr hh he hs

/-- A commit is the end of a watched transfer. -/
theorem SlotInv.commit_eq {m : Mon} {x : Inputs} (h : SlotInv m) (hr : x.resetWen = false)
    (hok : m.stray = true → m.snooper.enable = true → x.hready = true → x.resetWen = true) :
    m.snooper.commit x = (m.watching && x.hready && m.snooper.enable) := by
  cases hh : x.hready with
  | false => simp [Regs.commit, hh]
  | true =>
    cases he : m.snooper.enable with
    | false => simp [Regs.commit, he]
    | true =>
      have hs : m.stray = false := by
        by_contra hs
        rw [hok (by simpa using hs) he hh] at hr
        exact absurd hr.symm Bool.false_ne_true
      simp [Regs.commit, hh, he, h.pendVld_eq hs]

/-- What is recorded of a watched transfer is what a commit writes. -/
theorem SlotInv.ended_eq {m : Mon} (h : SlotInv m) (x : Inputs) :
    m.ended x = if m.watching && x.hready && m.snooper.enable then [m.snooper.entry x] else [] := by
  cases hw : m.watching with
  | true =>
    obtain ⟨a, ha⟩ := (watching_iff m).mp hw
    rw [ended, ha, Regs.entry, (h.watched a ha).2]
    simp
  | false =>
    rw [ended]
    split
    · rename_i a ha
      have hw' : m.watching = true := (watching_iff m).mpr ⟨a, ha⟩
      rw [hw] at hw'
      exact absurd hw' Bool.false_ne_true
    · rfl

/-- A push keeps the ring. -/
theorem RingInv.push {s : Regs} {log : List Entry} (e : Entry)
    (hhead : s.head = BitVec.ofNat 4 log.length)
    (hcount : s.count.toNat = min N_ENTRIES log.length)
    (hring : StreamRing.Holds N_ENTRIES (fun k => some (s.ring (BitVec.ofNat 4 k)))
      (fun k => log[k]?) log.length) :
    (s.push e).head = BitVec.ofNat 4 (log ++ [e]).length ∧
      (s.push e).count.toNat = min N_ENTRIES (log ++ [e]).length ∧
      StreamRing.Holds N_ENTRIES (fun k => some ((s.push e).ring (BitVec.ofNat 4 k)))
        (fun k => (log ++ [e])[k]?) (log ++ [e]).length := by
  have hlen : (log ++ [e]).length = log.length + 1 := by simp
  refine ⟨?_, ?_, ?_⟩
  · rw [hlen, BitVec.ofNat_add]
    show s.head + 1 = _
    rw [hhead]
    rfl
  · rw [hlen, Regs.push_count e (by omega), hcount]
    omega
  · -- the slot written is the one of the next item of the stream
    have hstream : StreamRing.Holds N_ENTRIES (fun k => some (s.ring (BitVec.ofNat 4 k)))
        (fun k => (log ++ [e])[k]?) log.length :=
      hring.congr fun i hi => (List.getElem?_append_left hi).symm
    rw [hlen]
    refine hstream.push.congr_ring fun i => ?_
    have hval : (log ++ [e])[log.length]? = some e := by simp
    show Function.update (fun k => some (s.ring (BitVec.ofNat 4 k))) (log.length % N_ENTRIES)
      (log ++ [e])[log.length]? (i % N_ENTRIES) =
        some (Function.update s.ring s.head e (BitVec.ofNat 4 (i % N_ENTRIES)))
    rw [hval, hhead]
    -- slot numbers below 16 differ exactly when their registers do
    by_cases hi : i % N_ENTRIES = log.length % N_ENTRIES
    · have : BitVec.ofNat 4 (i % N_ENTRIES) = BitVec.ofNat 4 log.length := by
        rw [hi]
        apply BitVec.eq_of_toNat_eq
        simp [N_ENTRIES]
      rw [hi, Function.update_self, ← hi, this, Function.update_self]
    · have : BitVec.ofNat 4 (i % N_ENTRIES) ≠ BitVec.ofNat 4 log.length := by
        intro he
        have := congrArg BitVec.toNat he
        simp only [N_ENTRIES, BitVec.toNat_ofNat] at this hi
        omega
      rw [Function.update_of_ne hi, Function.update_of_ne this]

/-- **One cycle keeps the ring.** -/
theorem RingInv.edge {m : Mon} {x : Inputs} (h : RingInv m) (hslot : SlotInv m)
    (hok : m.stray = true → m.snooper.enable = true → x.hready = true → x.resetWen = true) :
    RingInv (m.edge x) := by
  cases hr : x.resetWen with
  | true =>
    have hlog : (m.edge x).log = [] := by simp [Mon.edge, hr]
    refine ⟨?_, ?_, ?_⟩
    · simp [Mon.edge, Regs.step, hr]
    · simp [Mon.edge, Regs.step, hr]
    · rw [hlog]
      exact StreamRing.holds_zero _ _ _
  | false =>
    obtain ⟨hring, hhead, hcount⟩ := Regs.step_ring (s := m.snooper) hr
    have hlog : (m.edge x).log = m.log ++ m.ended x := by simp [Mon.edge, hr]
    rw [hslot.commit_eq hr hok] at hring hhead hcount
    rw [hslot.ended_eq] at hlog
    cases hc : m.watching && x.hready && m.snooper.enable with
    | true =>
      rw [hc, if_pos rfl] at hring hhead hcount hlog
      obtain ⟨h1, h2, h3⟩ := RingInv.push (m.snooper.entry x) h.head h.count h.ring
      refine ⟨?_, ?_, ?_⟩
      · rw [hlog, ← h1, ← hhead]
        rfl
      · rw [hlog, ← h2, ← hcount]
        rfl
      · rw [hlog]
        show StreamRing.Holds _ (fun k => some ((m.snooper.step x).ring _)) _ _
        rw [hring]
        exact h3
    | false =>
      rw [hc, if_neg Bool.false_ne_true] at hring hhead hcount hlog
      rw [List.append_nil] at hlog
      refine ⟨?_, ?_, ?_⟩
      · rw [hlog, ← h.head, ← hhead]
        rfl
      · rw [hlog, ← h.count, ← hcount]
        rfl
      · rw [hlog]
        show StreamRing.Holds _ (fun k => some ((m.snooper.step x).ring _)) _ _
        rw [hring]
        exact h.ring

/-! ## Runs -/

/-- **What the ring invariant says of the APB reads.** -/
theorem RingInv.faithful {m : Mon} (h : RingInv m) : Faithful m := by
  refine ⟨h.count, ?_⟩
  have hc := h.count
  simp only [N_ENTRIES] at hc
  apply List.ext_getElem?
  intro i
  rw [List.getElem?_drop, Regs.readRing, List.getElem?_map]
  by_cases hi : i < m.snooper.count.toNat
  · -- entry `i` from the oldest one is entry `length - count + i` of the log
    have hlt : m.log.length - N_ENTRIES + i < m.log.length := by
      simp only [N_ENTRIES]
      omega
    have hidx : m.snooper.head - m.snooper.count.setWidth 4 + BitVec.ofNat 4 i =
        BitVec.ofNat 4 ((m.log.length - N_ENTRIES + i) % N_ENTRIES) := by
      rw [h.head]
      apply BitVec.eq_of_toNat_eq
      simp only [N_ENTRIES, BitVec.toNat_add, BitVec.toNat_sub, BitVec.toNat_ofNat,
        BitVec.toNat_setWidth]
      omega
    have hring := h.ring _ hlt (by simp only [N_ENTRIES] at *; omega)
    rw [List.getElem?_range hi, Option.map_some, Regs.readEntry_eq, hidx]
    exact hring
  · rw [List.getElem?_eq_none (by simpa using hi), Option.map_none, List.getElem?_eq_none]
    simp only [N_ENTRIES]
    omega

/-- The invariant at reset. -/
theorem start_inv (ring : BitVec 4 → Entry) : SlotInv (start ring) ∧ RingInv (start ring) := by
  refine ⟨⟨?_, ?_, ?_⟩, ⟨rfl, rfl, StreamRing.holds_zero _ _ _⟩⟩
  · intro a ha
    exact absurd ha.symm (Option.some_ne_none _)
  · intro hv
    exact absurd hv Bool.false_ne_true
  · intro hv
    exact absurd hv Bool.false_ne_true

/-- **One cycle** without the commit of a stray slot keeps slot and ring. -/
theorem step_inv {m : Mon} {x : Inputs} (h : SlotInv m ∧ RingInv m) (hok : m.Ok x) :
    SlotInv (m.step x) ∧ RingInv (m.step x) :=
  ⟨h.1.edge hok, h.2.edge h.1 hok⟩

/-- **Fidelity of the snooper.** In a run in which no stray slot is committed, the ring holds the
last 16 transfers that were watched to their end, oldest first, and `count` says how many. -/
theorem run_faithful (ring : BitVec 4 → Entry) (i : ℕ → Inputs)
    (hok : ∀ n, (trace step (start ring) i n).Ok (i n)) (n : ℕ) :
    (trace step (start ring) i n).Faithful := by
  have hinv := trace_invariant (fun m => SlotInv m ∧ RingInv m) (start_inv ring)
    (fun n h => step_inv h (hok n)) n
  exact hinv.2.faithful

/-- The condition is needed: while the ring is not full, committing a stray slot adds an entry
that no watched transfer has. -/
theorem step_not_faithful {m : Mon} {x : Inputs} (h : SlotInv m ∧ RingInv m) (hok : ¬ m.Ok x)
    (hfull : m.log.length < N_ENTRIES) : ¬ (m.step x).Faithful := by
  simp only [Ok, Classical.not_imp] at hok
  obtain ⟨hs, he, hh, hr⟩ := hok
  rw [Bool.not_eq_true] at hr
  obtain ⟨hv, hw⟩ := h.1.stray hs
  have hcount := h.2.count
  have hc : m.snooper.commit (m.tapped x) = true := by simp [Regs.commit, he, hv, hh]
  have hr' : (m.tapped x).resetWen = false := hr
  -- the ring gets an entry, the log does not
  have hlog : (m.step x).log = m.log := by
    show (m.edge (m.tapped x)).log = m.log
    simp [Mon.edge, h.1.ended_eq, hw, hr']
  have hpush : (m.step x).snooper.count.toNat = min N_ENTRIES (m.snooper.count.toNat + 1) := by
    show (m.snooper.step (m.tapped x)).count.toNat = _
    rw [(Regs.step_ring hr').2.2, hc, if_pos rfl, Regs.push_count _ (by omega)]
  intro hf
  have := hf.count
  rw [hlog, hpush] at this
  omega

end Mon

/-! ## Two runs -/

def idleAphase : APhase := ⟨0, false, 0, 0, false, 0, false, 0x10#5, false⟩

def idleApb : Apb := ⟨false, false, false, 0, 0⟩

/-- Cycle `k` of a transfer through the bridge: its address phase, three wait states, in the last
of which the slave sees the APB access `apb`, and the end of its data phase. -/
def transfer (a : APhase) (hwdata : BitVec 32) (apb : Apb) (k : ℕ) : Inputs where
  aphase := if k = 0 then a else idleAphase
  dphase := ⟨hwdata, hwdata, 0, 0, 0, 0⟩
  hready := k == 4
  apb := if k = 3 then apb else idleApb

/-- A store by the CPU to address `haddr` of the bridge. -/
def store (haddr : BitVec 16) : APhase :=
  ⟨haddr, true, 2, 0x4000#16 ++ haddr, true, 2, true, 5, false⟩

/-- Cycle `k` of a write of CTRL. -/
def ctrlWrite (v : BitVec 32) (k : ℕ) : Inputs :=
  transfer (store 0xc200) v ⟨true, true, true, 0xc200, v⟩ k

/-- CTRL is written three times: enable, disable, enable. -/
def reenable (n : ℕ) : Inputs :=
  if n < 5 then ctrlWrite 1 n
  else if n < 10 then ctrlWrite 0 (n - 5)
  else ctrlWrite 1 (n - 10)

/-- The snooper is enabled and then a byte is written to the UART. -/
def enableAndWrite (n : ℕ) : Inputs :=
  if n < 5 then ctrlWrite 1 n
  else if n < 10 then transfer (store 0x400c) 0x42 idleApb (n - 5)
  else transfer idleAphase 0 idleApb 4

def noEntry : Entry := ⟨0, 0, 0, 0, 0, 0, 0, 0⟩

namespace Mon

/-- An enabled snooper with no stray slot and an idle bus. -/
theorem step_idle {m : Mon} (hs : m.stray = false) (he : m.snooper.enable = true) :
    (m.step (transfer idleAphase 0 idleApb 4)).stray = false ∧
      (m.step (transfer idleAphase 0 idleApb 4)).snooper.enable = true := by
  have hc : (m.tapped (transfer idleAphase 0 idleApb 4)).ctrlWen = false := rfl
  refine ⟨?_, ?_⟩
  · simp [step, edge, strays, hs, he, tapped, transfer, idleAphase]
  · show (m.snooper.step _).enable = true
    rw [Regs.step_enable, hc]
    exact he

theorem enableAndWrite_ok (n : ℕ) :
    (trace step (start fun _ => noEntry) enableAndWrite n).Ok (enableAndWrite n) := by
  rcases Nat.lt_or_ge n 10 with hn | hn
  · revert n
    decide
  · obtain ⟨d, rfl⟩ := Nat.exists_eq_add_of_le hn
    have hquiet : (trace step (start fun _ => noEntry) enableAndWrite (10 + d)).stray = false ∧
        (trace step (start fun _ => noEntry) enableAndWrite (10 + d)).snooper.enable = true := by
      clear hn
      induction d with
      | zero => decide
      | succ d ih =>
        have hidle : enableAndWrite (10 + d) = transfer idleAphase 0 idleApb 4 := by
          rw [enableAndWrite, if_neg (by omega), if_neg (by omega)]
        rw [← Nat.add_assoc, trace_succ, hidle]
        exact step_idle ih.1 ih.2
    intro hs
    rw [hquiet.1] at hs
    exact absurd hs Bool.false_ne_true

theorem faithful_enableAndWrite :
    (trace step (start fun _ => noEntry) enableAndWrite 10).Faithful ∧
      (trace step (start fun _ => noEntry) enableAndWrite 10).log.length = 1 :=
  ⟨run_faithful (fun _ => noEntry) enableAndWrite enableAndWrite_ok 10, by decide⟩

/-- The write that disables the snooper stays in the slot and is committed with the data of the
write that enables it again. -/
theorem not_faithful_reenable :
    ¬ (trace step (start fun _ => noEntry) reenable 15).Faithful := by
  intro h
  have hcount : (trace step (start fun _ => noEntry) reenable 15).snooper.count.toNat = 1 := by
    decide
  have hlog : (trace step (start fun _ => noEntry) reenable 15).log.length = 0 := by decide
  have := h.count
  rw [hcount, hlog] at this
  exact absurd this (by decide)

end Mon

end KwsSoc.Snooper
