import KwsSoc.Sim.FlashReads
import KwsSoc.Xip.ReadData
import KwsSoc.Xip.Transaction

/-! # The testbench around the XIP slave

The main loop of `kws_soc_vpi.cpp` and `kws_soc_tb.cpp` as far as the flash is concerned: in each
cycle the simulated flash is called with the pins before the rising clock edge, the edge samples
what it drives, and it is called again with the pins after the edge (`Testbed.step`). A warm reset
may come in place of an edge.

`Sees` says how far the simulated flash is in the transaction of the controller, also when resets
cut transactions off. The slave with `FlashSim` then runs like the slave with the flash of
`Xip.Slave`, so that every read returns the bytes of the image file (`Testbed.reads_image`). -/

namespace KwsSoc.Sim

open Xip FlashSim

/-- The registers of the XIP slave, and the simulated flash. -/
structure Testbed (w l : ℕ) where
  dmc : Dmc w l
  wrap : Wrapper
  ctrl : FlashCtrl w
  sim : FlashSim

namespace Testbed

variable {w l : ℕ}

/-- The slave, with an observer of the pins beside it. -/
def slave (t : Testbed w l) (sf : SpiFlash) : Slave w l := ⟨t.dmc, t.wrap, t.ctrl, sf⟩

/-- The pins. -/
def pins (t : Testbed w l) : SpiPins := (t.slave .deselected).pins

/-- The registers of a slave, with the flash beside them. -/
def ofSlave (s : Slave w l) (f : FlashSim) : Testbed w l := ⟨s.dmc, s.wrap, s.ctrl, f⟩

/-- Power-on, with a flash that has been loaded. -/
def powerOn (w l : ℕ) (f : FlashSim) : Testbed w l := ofSlave (Slave.powerOn w l) f

/-- The registers after a clock edge, or after a reset. -/
def edge (T : TrstCycles) (t : Testbed w l) (di : BitVec 4) : Xip.Event → Testbed w l
  | .reset => ofSlave (t.slave .deselected).reset t.sim
  | .clock x =>
    { t with
      dmc := t.dmc.step ((t.slave .deselected).dmcIn x)
      wrap := (t.slave .deselected).stepWrap x
      ctrl := t.ctrl.step T t.wrap.flashStartReg di }

/-- **One iteration of the main loop.** -/
def step (T : TrstCycles) (t : Testbed w l) (e : Xip.Event) : Option (Testbed w l) :=
  (t.sim.call t.pins).bind fun (f, di) =>
    let t' := { t with sim := f }.edge T di e
    (t'.sim.call t'.pins).map fun (f', _) => { t' with sim := f' }

/-- The testbench after `n` iterations, if no assertion of the flash failed. -/
def run (T : TrstCycles) (t : Testbed w l) (e : ℕ → Xip.Event) : ℕ → Option (Testbed w l)
  | 0 => some t
  | n + 1 => (run T t e n).bind fun t' => t'.step T (e n)

end Testbed

/-! ## How far the flash is -/

section Sees

variable {w : ℕ} {T : TrstCycles} {mem : BitVec 32 → BitVec 8} {a b : BitVec 24}
  {r : FlashCtrl w} {f : FlashSim} {q : FState} {first : Bool} {k : ℕ}

/-- The flash after `k` clocks of state `q`; `first` is `is_first`. After a warm reset the controller
does not know whether the flash waits for an address. -/
def Sees (a : BitVec 24) (q : FState) (first : Bool) (k : ℕ) (f : FlashSim) : Prop :=
  match q with
  | .idle => Warm f ∨ first = true ∧ Cold f
  | .cmd66 => first = true ∧ (Commanded 0x66 k f ∨ Misread k f)
  | .wait66 | .trstWait => first = true ∧ Cold f
  | .cmd99 => first = true ∧ Commanded 0x99 k f
  | .cmdEb => first = true ∧ if k < 8 then Commanded 0xEB k f else ∀ a', Reading a' true 0 f
  | .addr => Reading a first k f
  | .mode => Reading a first (6 + k) f
  | .dummy => Reading a first (8 + k) f
  | .data => Reading a first (12 + k) f
  | .doneWait => Warm f

/-- The flash has only been read. -/
theorem Sees.readable (h : Sees a q first k f) : Readable f := by
  cases q
  case idle => exact h.elim Warm.readable fun hc => hc.2.readable
  case doneWait => exact Warm.readable h
  case wait66 | trstWait => exact h.2.readable
  case cmd66 => exact h.2.elim (fun hc => hc.cold.readable) fun hm => readable_of_readState hm.state
  case cmd99 => exact h.2.cold.readable
  case cmdEb =>
    obtain ⟨-, h⟩ := h
    split_ifs at h
    · exact h.cold.readable
    · exact readable_of_readState (h a).state
  all_goals exact readable_of_readState (Reading.state h)

/-- The level of SCK apart. -/
theorem Sees.lastSck (h : Sees a q first k f) (s : Bool) :
    Sees a q first k { f with lastSck := s } := by
  have hread : ∀ {a first j}, Reading a first j f → Reading a first j { f with lastSck := s } :=
    fun hr => ⟨hr.mode, hr.state, hr.count, hr.ireg, hr.modeNibble, hr.continuous, hr.addr,
      hr.empty, hr.byte, hr.nibble⟩
  have hcold : Cold f → Cold { f with lastSck := s } := fun hc =>
    ⟨hc.mode, hc.state, hc.continuous⟩
  have hwarm : Warm f → Warm { f with lastSck := s } := fun hw =>
    ⟨hw.mode, hw.state, hw.continuous⟩
  have hcmd : ∀ {b}, Commanded b k f → Commanded b k { f with lastSck := s } := fun hc =>
    ⟨hcold hc.cold, hc.count, hc.ireg⟩
  cases q
  case idle => exact Or.imp hwarm (And.imp_right hcold) h
  case doneWait => exact hwarm h
  case wait66 | trstWait => exact And.imp_right hcold h
  case cmd66 =>
    exact And.imp_right (Or.imp hcmd fun hm =>
      ⟨hm.mode, hm.state, hm.count, hm.ireg, hm.continuous⟩) h
  case cmd99 => exact And.imp_right hcmd h
  case cmdEb =>
    refine And.imp_right (fun hk => ?_) h
    split_ifs at hk ⊢
    · exact hcmd hk
    · exact fun a' => hread (hk a')
  all_goals exact hread h

/-- **A transaction that is cut off** leaves the flash warm or cold. -/
theorem Sees.cut (h : Sees a q first k f) (hk : q = .cmd66 → k ≤ 8) :
    Warm f.deselect ∨ Cold f.deselect := by
  have hread : ∀ {a first j}, Reading a first j f → Warm f.deselect ∨ Cold f.deselect := by
    intro a first j hr
    have hend := hr.deselect
    split_ifs at hend
    · exact .inr hend
    · exact .inl hend
  cases q
  case idle => exact h.elim (fun hw => .inl hw.deselect) fun hc => .inr hc.2.deselect
  case doneWait => exact .inl (Warm.deselect h)
  case wait66 | trstWait => exact .inr h.2.deselect
  case cmd66 =>
    rcases h.2 with hc | hm
    · exact .inr hc.deselect
    · have hend := hm.deselect (hk rfl)
      split_ifs at hend
      · exact .inl hend
      · exact .inr hend
  case cmd99 => exact .inr h.2.deselect
  case cmdEb =>
    obtain ⟨-, h⟩ := h
    split_ifs at h
    · exact .inr h.deselect
    · exact hread (h a)
  all_goals exact hread h

/-- With chip select released nothing changes. -/
theorem Sees.released (h : Sees a q first k f) (hr : r.state = q) (hact : r.active = false)
    (k' : ℕ) : Sees b q first k' f.deselect := by
  rw [FlashCtrl.active, hr] at hact
  cases q
  case idle => exact Or.imp Warm.deselect (And.imp_right Cold.deselect) h
  case doneWait => exact Warm.deselect h
  case wait66 | trstWait => exact And.imp_right Cold.deselect h
  all_goals cases hact

/-- **The end of a selection.** -/
theorem Sees.leave (h : Sees a q first k f) (hk : 2 * k = q.len T)
    (hq : q = .cmd66 ∨ q = .cmd99 ∨ q = .data) (k' : ℕ) :
    Sees b q.succ (first && q != .data) k' f.deselect := by
  rcases hq with rfl | rfl | rfl
  · obtain ⟨hf, hc | hm⟩ := h
    · exact ⟨by rw [hf]; rfl, hc.deselect⟩
    · have hend := hm.deselect (by simp only [FState.len] at hk; omega)
      rw [if_neg (by simp only [FState.len] at hk; omega)] at hend
      exact ⟨by rw [hf]; rfl, hend⟩
  · exact ⟨by rw [h.1]; rfl, h.2.deselect⟩
  · have hend := Reading.deselect h
    rw [if_neg (by omega)] at hend
    exact hend

/-- **The beginning of a selection** after `IDLE` or a wait. -/
theorem Sees.enter (h : Sees a q first k f) (hf : Fresh f) :
    (q = .idle → Sees b (if first then .cmd66 else .addr) first 0 f) ∧
      (q = .wait66 ∨ q = .trstWait → Sees b q.succ first 0 f) := by
  constructor
  · rintro rfl
    cases first with
    | true => exact ⟨rfl, h.symm.imp (fun hc => hc.2.commanded hf _) fun hw => hw.misread hf⟩
    | false =>
      rcases h with hw | hc
      · exact hw.reading hf b
      · cases hc.1
  · rintro (rfl | rfl)
    · exact ⟨h.1, h.2.commanded hf _⟩
    · exact ⟨h.1, by rw [if_pos (by decide)]; exact h.2.commanded hf _⟩

/-- From one state of a selection to the next one. -/
theorem Sees.go_on (h : Sees a q first k f) (hk : 2 * k = q.len T)
    (hq : q = .cmdEb ∨ q = .addr ∨ q = .mode ∨ q = .dummy) : Sees a q.succ first 0 f := by
  rcases hq with rfl | rfl | rfl | rfl <;> simp only [FState.len] at hk
  · obtain ⟨hf, h⟩ := h
    rw [if_neg (by omega)] at h
    rw [hf]
    exact h a
  · obtain rfl : k = 6 := by omega
    exact h
  · obtain rfl : k = 2 := by omega
    exact h
  · obtain rfl : k = 4 := by omega
    exact h

/-- A clock of a command. -/
theorem Sees.fall_command (h : Sees a q first k f) (hs : Steady mem f) (hlast : f.lastSck = true)
    (hk8 : k < 8) {p : SpiPins} (hcs : p.csn = false) (hsck : p.sck = false) {cmd : BitVec 8}
    (hd : p.spiDo = commandBit cmd k)
    (hq : q = .cmd66 ∧ cmd = 0x66 ∨ q = .cmd99 ∧ cmd = 0x99 ∨ q = .cmdEb ∧ cmd = 0xEB) :
    ∃ g, f.call p = some (g, g.out p.spiDo) ∧ Steady mem g ∧ g.lastSck = false ∧
      Sees a q first (k + 1) g := by
  rcases hq with ⟨rfl, rfl⟩ | ⟨rfl, rfl⟩ | ⟨rfl, rfl⟩
  · obtain ⟨hf, hc | hm⟩ := h
    · obtain ⟨g, hg, hsg, hl, hcg⟩ := hc.call hs hk8 (.inl rfl) hcs hlast hsck hd
      rw [if_neg fun hand => absurd hand.1 (by decide)] at hcg
      exact ⟨g, hg, hsg, hl, hf, .inl hcg⟩
    · obtain ⟨g, hg, hsg, hl, hmg⟩ := hm.call hs hk8 hcs hlast hsck hd
      exact ⟨g, hg, hsg, hl, hf, .inr hmg⟩
  · obtain ⟨g, hg, hsg, hl, hcg⟩ := h.2.call hs hk8 (.inr (.inl rfl)) hcs hlast hsck hd
    rw [if_neg fun hand => absurd hand.1 (by decide)] at hcg
    exact ⟨g, hg, hsg, hl, h.1, hcg⟩
  · obtain ⟨hf, hc⟩ := h
    rw [if_pos hk8] at hc
    obtain ⟨g, hg, hsg, hl, hcg⟩ := hc.call hs hk8 (.inr (.inr rfl)) hcs hlast hsck hd
    refine ⟨g, hg, hsg, hl, hf, ?_⟩
    simp only [true_and] at hcg
    by_cases h7 : k = 7
    · rw [if_pos h7] at hcg
      rw [if_neg (by omega)]
      exact hcg
    · rw [if_neg h7] at hcg
      rw [if_pos (by omega)]
      exact hcg

/-- Clocks of a read that precede those of a state. -/
def clocksBefore : FState → ℕ
  | .mode => 6
  | .dummy => 8
  | .data => 12
  | .idle | .cmd66 | .wait66 | .cmd99 | .trstWait | .cmdEb | .addr | .doneWait => 0

/-- In the states of a read the flash reads. -/
theorem sees_read (hq : q = .addr ∨ q = .mode ∨ q = .dummy ∨ q = .data) :
    Sees a q first k f ↔ Reading a first (clocksBefore q + k) f := by
  rcases hq with rfl | rfl | rfl | rfl
  · change _ ↔ Reading a first (0 + k) f
    rw [Nat.zero_add]
    exact Iff.rfl
  all_goals exact Iff.rfl

/-- The data lines in the states of a read. -/
theorem spiDo_read (hr : r.state = q) (hin : r.InTick T) (hk : r.phaseTick.toNat = 2 * k)
    (hq : q = .addr ∨ q = .mode ∨ q = .dummy ∨ q = .data) (h8 : clocksBefore q + k < 8) :
    r.spiDo a = readLine a (clocksBefore q + k) := by
  have hlt := hin.2
  have hhalf : r.phaseTick.toNat / 2 = k := by omega
  rw [hr] at hlt
  rcases hq with rfl | rfl | rfl | rfl <;> simp only [FState.len, clocksBefore] at hlt h8
  · have hj : clocksBefore .addr + k = k := Nat.zero_add k
    rw [FlashCtrl.spiDo_addr_eq hr hlt, hhalf, hj, readLine, if_pos (by omega)]
  · have hj : clocksBefore .mode + k = 6 + k := rfl
    have hge : ¬ 6 + k < 6 := by omega
    rw [FlashCtrl.spiDo_mode hr hlt, hhalf, hj, readLine, if_neg hge]
    simp only [Nat.add_eq_left]
  · omega
  · omega

/-- **A clock**, in the tick in which SCK falls. -/
theorem Sees.fall (h : Sees a q first k f) (hs : Steady mem f) (hr : r.state = q)
    (hin : r.InTick T) (hact : r.active = true) (hk : r.phaseTick.toNat = 2 * k)
    (hlast : f.lastSck = true) :
    ∃ g o, f.call (r.pins a) = some (g, o) ∧ Steady mem g ∧ g.lastSck = false ∧
      Sees a q first (k + 1) g := by
  have hp := FlashCtrl.pins_selected (a := a) hact
  have hcs : (r.pins a).csn = false := by rw [hp]
  have hsck : (r.pins a).sck = false := by
    rw [hp, hk]
    simp
  have hdo : (r.pins a).spiDo = r.spiDo a := rfl
  have hlt := hin.2
  rw [hr] at hlt
  by_cases hq : q = .addr ∨ q = .mode ∨ q = .dummy ∨ q = .data
  · rw [sees_read hq] at h
    have hj : clocksBefore q + k < 2 ^ 16 := by
      rcases hq with rfl | rfl | rfl | rfl <;> simp only [FState.len, clocksBefore] at hlt ⊢ <;>
        omega
    obtain ⟨g, hg, hsg, hl, hread⟩ :=
      h.call hs hj hcs hlast hsck fun h8 => hdo.trans (spiDo_read hr hin hk hq h8)
    exact ⟨g, _, hg, hsg, hl, (sees_read hq).mpr hread⟩
  · have hcmd : ∃ cmd, (q = .cmd66 ∧ cmd = 0x66 ∨ q = .cmd99 ∧ cmd = 0x99 ∨ q = .cmdEb ∧ cmd = 0xEB) ∧
        r.spiDo a = r.cmdBit cmd ∧ r.phaseTick.toNat < 16 := by
      rw [FlashCtrl.active, hr] at hact
      rw [FlashCtrl.spiDo, hr]
      cases q
      case cmd66 => exact ⟨0x66, .inl ⟨rfl, rfl⟩, rfl, hlt⟩
      case cmd99 => exact ⟨0x99, .inr (.inl ⟨rfl, rfl⟩), rfl, hlt⟩
      case cmdEb => exact ⟨0xEB, .inr (.inr ⟨rfl, rfl⟩), rfl, hlt⟩
      all_goals simp at hq hact
    obtain ⟨cmd, hcmd, hd, h16⟩ := hcmd
    have hbit : (r.pins a).spiDo = commandBit cmd k := by
      rw [hdo, hd, FlashCtrl.cmdBit_eq h16, hk, Nat.mul_div_cancel_left _ (by decide)]
      rfl
    obtain ⟨g, hg⟩ := h.fall_command hs hlast (by omega) hcs hsck hbit hcmd
    exact ⟨g, _, hg⟩

end Sees

/-! ## One cycle -/

section Follows

variable {w : ℕ} {T : TrstCycles} {mem : BitVec 32 → BitVec 8} {a b : BitVec 24}
  {r r' : FlashCtrl w} {f : FlashSim}

/-- The flash after the call that follows a clock edge, by the registers of the controller. -/
structure Follows (mem : BitVec 32 → BitVec 8) (a : BitVec 24) (r : FlashCtrl w) (f : FlashSim) :
    Prop where
  steady : Steady mem f
  sck : r.active = true → f.lastSck = (r.phaseTick.toNat % 2 == 1)
  sees : Sees a r.state r.isFirst (r.phaseTick.toNat / 2 + 1) f

/-- The call before the next edge: while the flash is selected nothing happens. -/
theorem Follows.call_active (h : Follows mem a r f) (hact : r.active = true) :
    f.call (r.pins a) = some (f, f.out (r.spiDo a)) := by
  have hp := FlashCtrl.pins_selected (a := a) hact
  refine call_still h.steady (by rw [hp]) ?_
  rw [hp, h.sck hact]

/-- Otherwise it is deselected once more. -/
theorem Follows.call_released (h : Follows mem a r f) (hact : r.active = false) :
    ∃ g, f.call (r.pins a) = some (g, r.spiDo a) ∧ Steady mem g ∧ Fresh g ∧
      ∀ b k, Sees b r.state r.isFirst k g := by
  have hcs : (r.pins a).csn = true := by rw [FlashCtrl.pins, hact]; rfl
  have hread := h.sees.readable
  exact ⟨_, FlashSim.call_released h.steady hcs, h.steady.deselect hread, hread.fresh_deselect,
    fun _ k => h.sees.released rfl hact k⟩

/-- The call after an edge that leaves or keeps the flash deselected. -/
theorem follows_of_released {g : FlashSim} (hs : Steady mem g) (hread : Readable g)
    (hact : r'.active = false) (h : ∀ k, Sees b r'.state r'.isFirst k g.deselect) :
    ∃ g' o, g.call (r'.pins b) = some (g', o) ∧ Follows mem b r' g' := by
  have hcs : (r'.pins b).csn = true := by rw [FlashCtrl.pins, hact]; rfl
  refine ⟨_, _, FlashSim.call_released hs hcs, hs.deselect hread, fun hsel => ?_, h _⟩
  rw [hact] at hsel
  cases hsel

/-- The call after an edge with which SCK falls. -/
theorem follows_of_fall {g : FlashSim} {k : ℕ} (hs : Steady mem g) (hin : r'.InTick T)
    (hact : r'.active = true) (hk : r'.phaseTick.toNat = 2 * k) (hlast : g.lastSck = true)
    (h : Sees b r'.state r'.isFirst k g) :
    ∃ g' o, g.call (r'.pins b) = some (g', o) ∧ Follows mem b r' g' := by
  obtain ⟨g', o, hg, hsg, hl, hsees⟩ := h.fall hs rfl hin hact hk hlast
  refine ⟨g', o, hg, hsg, fun _ => ?_, ?_⟩
  · rw [hl, hk]
    simp
  · rw [hk, Nat.mul_div_cancel_left _ (by decide)]
    exact hsees

/-- **A tick within a state.** -/
theorem Follows.tick_on (h : Follows mem a r f) (hin : r'.InTick T) (hs : r'.state = r.state)
    (ht : r'.phaseTick.toNat = r.phaseTick.toNat + 1) (hf : r'.isFirst = r.isFirst) :
    ∃ g o, f.call (r.pins a) = some (g, o) ∧
      ∃ g' o', g.call (r'.pins a) = some (g', o') ∧ Follows mem a r' g' := by
  have hactive : r'.active = r.active := by rw [FlashCtrl.active, FlashCtrl.active, hs]
  cases hact : r.active with
  | false =>
    obtain ⟨g, hg, hsg, -, hsees⟩ := h.call_released hact
    refine ⟨g, _, hg, follows_of_released hsg (hsees a 0).readable (hactive.trans hact) fun k => ?_⟩
    rw [hs, hf]
    exact (hsees a 0).released rfl hact k
  | true =>
    refine ⟨f, _, h.call_active hact, ?_⟩
    rcases Nat.mod_two_eq_zero_or_one r.phaseTick.toNat with heven | hodd
    · -- SCK rises
      have hp := FlashCtrl.pins_selected (a := a) (hactive.trans hact)
      have hlast : f.lastSck = false := by
        rw [h.sck hact, heven]
        rfl
      refine ⟨_, _, call_no_fall h.steady (by rw [hp]) (.inl hlast), ?_, fun _ => ?_, ?_⟩
      · exact h.steady.of_eq rfl rfl rfl
      · rw [hp]
      · rw [hs, hf, show r'.phaseTick.toNat / 2 = r.phaseTick.toNat / 2 by omega]
        exact h.sees.lastSck _
    · have hlast : f.lastSck = true := by
        rw [h.sck hact, hodd]
        rfl
      refine follows_of_fall (k := r.phaseTick.toNat / 2 + 1) h.steady hin (hactive.trans hact)
        (by omega) hlast ?_
      rw [hs, hf]
      exact h.sees

/-- **The last tick of a state.** -/
theorem Follows.next_state (h : Follows mem a r f) (hin : r.InTick T)
    (hl : r.phaseTick.toNat + 1 = r.state.len T) (hs : r'.state = r.state.succ)
    (ht : r'.phaseTick = 0) (hf : r'.isFirst = (r.isFirst && r.state != .data)) :
    ∃ g o, f.call (r.pins a) = some (g, o) ∧
      ∃ g' o', g.call (r'.pins a) = some (g', o') ∧ Follows mem a r' g' := by
  have hactive : r'.active = true → r'.InTick T := fun hact => by
    have hne : r'.state ≠ .idle := by
      intro hi
      rw [FlashCtrl.active, hi] at hact
      cases hact
    exact ⟨hne, by rw [ht]; exact FState.len_pos T hne⟩
  have hk0 : r'.phaseTick.toNat = 2 * 0 := by rw [ht]; rfl
  cases hact : r.active with
  | false =>
    obtain ⟨g, hg, hsg, hfresh, hsees⟩ := h.call_released hact
    refine ⟨g, _, hg, ?_⟩
    have henter := fun q => (hsees a q).enter (b := a) hfresh
    rw [FlashCtrl.active] at hact
    cases hq : r.state <;> rw [hq] at hact
    case idle => exact absurd hq hin.1
    case wait66 | trstWait =>
      rw [hq] at hs hf
      have hact' : r'.active = true := by rw [FlashCtrl.active, hs]; rfl
      have hfirst : r'.isFirst = r.isFirst := hf.trans (Bool.and_true _)
      refine follows_of_fall hsg (hactive hact') hact' hk0 hfresh.lastSck ?_
      rw [hs, hfirst]
      simpa [hq] using (henter 0).2 (by simp [hq])
    case doneWait =>
      rw [hq] at hs hf
      have hact' : r'.active = false := by rw [FlashCtrl.active, hs]; rfl
      refine follows_of_released hsg (hsees a 0).readable hact' fun k => ?_
      have hw := hsees a 0
      rw [hq] at hw
      rw [hs]
      exact .inl (Warm.deselect hw)
    all_goals cases hact
  | true =>
    refine ⟨f, _, h.call_active hact, ?_⟩
    have hsees := h.sees
    have hodd : r.phaseTick.toNat % 2 = 1 := by
      rw [FlashCtrl.active] at hact
      cases hq : r.state <;> rw [hq] at hl hact
      case idle | wait66 | trstWait | doneWait => cases hact
      all_goals
        simp only [FState.len] at hl
        omega
    have hlast : f.lastSck = true := by
      rw [h.sck hact, hodd]
      rfl
    have hk : 2 * (r.phaseTick.toNat / 2 + 1) = r.state.len T := by omega
    by_cases hend : r.state = .cmd66 ∨ r.state = .cmd99 ∨ r.state = .data
    · have hact' : r'.active = false := by
        rw [FlashCtrl.active, hs]
        rcases hend with hq | hq | hq <;> rw [hq] <;> rfl
      refine follows_of_released h.steady hsees.readable hact' fun k => ?_
      rw [hs, hf]
      exact hsees.leave hk hend k
    · have hgo : r.state = .cmdEb ∨ r.state = .addr ∨ r.state = .mode ∨ r.state = .dummy := by
        rw [FlashCtrl.active] at hact
        cases hq : r.state <;> simp_all
      have hact' : r'.active = true := by
        rw [FlashCtrl.active, hs]
        rcases hgo with hq | hq | hq | hq <;> rw [hq] <;> rfl
      refine follows_of_fall h.steady (hactive hact') hact' hk0 hlast ?_
      rw [hs, hf]
      have hnd : (r.state != .data) = true := by
        rcases hgo with hq | hq | hq | hq <;> rw [hq] <;> rfl
      rw [hnd, Bool.and_true]
      exact hsees.go_on hk hgo

/-- The idle controller, with or without `start`. -/
theorem Follows.idle (T : TrstCycles) (start : Bool) (h : Follows mem a r f) (hr : r.state = .idle)
    (hs : r'.state = if start then (if r.isFirst then .cmd66 else .addr) else .idle)
    (ht : start = true → r'.phaseTick = 0) (hf : r'.isFirst = r.isFirst) :
    ∃ g o, f.call (r.pins a) = some (g, o) ∧
      ∃ g' o', g.call (r'.pins b) = some (g', o') ∧ Follows mem b r' g' := by
  have hact : r.active = false := by rw [FlashCtrl.active, hr]
  obtain ⟨g, hg, hsg, hfresh, hsees⟩ := h.call_released hact
  refine ⟨g, _, hg, ?_⟩
  cases start with
  | false =>
    have hact' : r'.active = false := by rw [FlashCtrl.active, hs]; rfl
    refine follows_of_released hsg (hsees a 0).readable hact' fun k => ?_
    have hi := (hsees a 0).released (b := b) rfl hact k
    rw [hs, hf]
    rw [hr] at hi
    exact hi
  | true =>
    have htick := ht rfl
    rw [if_pos rfl] at hs
    have hact' : r'.active = true := by
      rw [FlashCtrl.active, hs]
      cases r.isFirst <;> rfl
    have hin : r'.InTick T := by
      rw [FlashCtrl.InTick, hs, htick]
      cases r.isFirst <;> exact ⟨FState.noConfusion, Nat.succ_pos _⟩
    refine follows_of_fall (k := 0) hsg hin hact' (by rw [htick]; rfl) hfresh.lastSck ?_
    rw [hs, hf]
    exact ((hsees a 0).enter hfresh).1 hr

/-- **A reset in place of an edge**, at any time. -/
theorem Follows.reset (h : Follows mem a r f) (hin : r.state = .idle ∨ r.InTick T) :
    ∃ g o, f.call (r.pins a) = some (g, o) ∧
      ∃ g' o', g.call ((FlashCtrl.reset w).pins b) = some (g', o') ∧
        Follows mem b (FlashCtrl.reset w) g' := by
  have hidle : ∀ {g : FlashSim}, Warm g ∨ Cold g → ∀ k, Sees b .idle true k g :=
    fun hwc k => hwc.imp_right fun hc => ⟨rfl, hc⟩
  cases hact : r.active with
  | false =>
    obtain ⟨g, hg, hsg, -, hsees⟩ := h.call_released hact
    refine ⟨g, _, hg, follows_of_released hsg (hsees a 0).readable rfl fun k => hidle ?_ k⟩
    exact (hsees a 0).cut fun _ => Nat.zero_le 8
  | true =>
    refine ⟨f, _, h.call_active hact, ?_⟩
    refine follows_of_released h.steady h.sees.readable rfl fun k => hidle (h.sees.cut ?_) k
    intro hq
    rcases hin with hi | hin
    · rw [hq] at hi
      cases hi
    · have hlt := hin.2
      rw [hq, FState.len] at hlt
      omega

/-- **Step lemma for the flash beside its controller.** -/
theorem Follows.step (h : Follows mem a r f) (start : Bool)
    (hr : r.state = .idle ∨ r.InTick T ∧ start = false) (hb : r.state ≠ .idle → b = a) :
    ∃ g o, f.call (r.pins a) = some (g, o) ∧ ∀ di, ∃ g' o',
      g.call ((r.step T start di).pins b) = some (g', o') ∧ Follows mem b (r.step T start di) g' := by
  -- the call before the edge does not depend on what the edge samples
  suffices hdi : ∀ di, ∃ g o, f.call (r.pins a) = some (g, o) ∧ ∃ g' o',
      g.call ((r.step T start di).pins b) = some (g', o') ∧
        Follows mem b (r.step T start di) g' by
    obtain ⟨g, o, hg, -⟩ := hdi 0
    refine ⟨g, o, hg, fun di => ?_⟩
    obtain ⟨g₁, o₁, hg₁, hrest⟩ := hdi di
    rw [hg, Option.some.injEq, Prod.mk.injEq] at hg₁
    rw [hg₁.1]
    exact hrest
  intro di
  rcases hr with hi | ⟨hin, rfl⟩
  · refine h.idle T start hi ?_ (fun hst => ?_) ?_
    · change r.nextState T start = _
      rw [FlashCtrl.nextState, hi]
    · rw [hst]
      exact (FlashCtrl.start_step hi di).2.2.2.1
    · change (if r.state = .data ∧ r.phaseTick = 127 then false else r.isFirst) = _
      rw [if_neg (by simp [hi])]
  · obtain rfl := hb hin.1
    have hlast : r.state = .data → (r.phaseTick = 127 ↔ r.phaseTick.toNat + 1 = r.state.len T) := by
      intro hd
      rw [hd, FState.len, ← BitVec.toNat_inj]
      change r.phaseTick.toNat = 127 ↔ _
      omega
    have hfirst : (r.step T false di).isFirst =
        if r.state = .data ∧ r.phaseTick = 127 then false else r.isFirst := rfl
    rcases FlashCtrl.step_running hin false di with ⟨hl, hs, ht⟩ | ⟨hl, hs, ht⟩
    · refine h.next_state hin hl hs ht ?_
      rw [hfirst]
      by_cases hd : r.state = .data
      · rw [if_pos ⟨hd, (hlast hd).mpr hl⟩, hd]
        exact (Bool.and_false _).symm
      · rw [if_neg fun hand => hd hand.1, (bne_iff_ne.mpr hd : (r.state != .data) = true),
          Bool.and_true]
    · refine h.tick_on ⟨by rw [hs]; exact hin.1, by rw [hs, ht]; exact hl⟩ hs ht ?_
      rw [hfirst, if_neg]
      rintro ⟨hd, h127⟩
      have := (hlast hd).mp h127
      omega

/-! ## What the edge samples -/

/-- A line lies within the flash. -/
theorem setWidth_add (c : BitVec 19) {k : ℕ} (hk : k < 32) :
    ((c ++ 0#5 : BitVec 24) + BitVec.ofNat 24 k).setWidth 32 =
      (c ++ 0#5 : BitVec 24).setWidth 32 + BitVec.ofNat 32 k := by
  have hc := c.isLt
  have hcat : (c ++ 0#5 : BitVec 24).toNat = c.toNat * 32 := by
    rw [BitVec.toNat_append, Nat.shiftLeft_eq]
    simp
  apply BitVec.eq_of_toNat_eq
  simp only [BitVec.toNat_setWidth, BitVec.toNat_add, BitVec.toNat_ofNat, hcat]
  omega

/-- The nibbles of a line, for both flashes. -/
theorem nibbleAt_eq {m : FlashMem} (hmem : ∀ y : BitVec 24, mem (y.setWidth 32) = m y)
    (c : BitVec 19) {k : ℕ} (hk : k < 64) :
    nibbleAt mem (c ++ 0#5) k = SpiFlash.nibble m (c ++ 0#5) k := by
  rw [nibbleAt, SpiFlash.nibble, ← setWidth_add c (by omega), hmem]
  split <;> rfl

/-- An observer of the pins has nothing to add to what the flash drives. -/
theorem Follows.di {m : FlashMem} {sf : SpiFlash} {c : BitVec 19}
    (hmem : ∀ y : BitVec 24, mem (y.setWidth 32) = m y) (h : Follows mem (c ++ 0#5) r f)
    (hact : r.active = true) (htr : Tracks (c ++ 0#5) r sf) (hin : r.InTick T) :
    sf.di m (r.pins (c ++ 0#5)) (f.out (r.spiDo (c ++ 0#5))) = f.out (r.spiDo (c ++ 0#5)) := by
  have hlt := hin.2
  by_cases hdata : r.state = .data ∧ r.phaseTick.toNat % 2 = 1
  · obtain ⟨hs, hodd⟩ := hdata
    have hsees := h.sees
    rw [hs] at hsees hlt
    simp only [FState.len] at hlt
    rw [di_data htr hs hodd, Reading.out hsees (by omega), h.steady.mem,
      show 12 + (r.phaseTick.toNat / 2 + 1) - 13 = r.phaseTick.toNat / 2 by omega]
    exact (nibbleAt_eq hmem c (by omega)).symm
  · rw [SpiFlash.di, if_neg]
    rintro ⟨-, hrise, hdoe, hn, hclk⟩
    obtain ⟨-, hst⟩ := htr
    have hodd : r.phaseTick.toNat % 2 = 1 := by
      rw [SpiFlash.rising, Bool.and_eq_true] at hrise
      have hsck := hrise.1
      rw [FlashCtrl.pins_selected hact] at hsck
      simpa using hsck
    have hdoe' : r.doe = 0b0000 := hdoe
    rw [FlashCtrl.doe] at hdoe'
    rw [FlashCtrl.active] at hact
    cases hq : r.state <;> rw [hq] at hst hdoe' hact hlt
    case data => exact hdata ⟨hq, hodd⟩
    case dummy =>
      simp only [FState.len] at hlt hst
      omega
    case idle | wait66 | trstWait | doneWait => cases hact
    all_goals exact absurd hdoe' (by decide)

end Follows

/-! ## Whole runs -/

namespace Testbed

variable {l : ℕ} {T : TrstCycles} {mem : BitVec 32 → BitVec 8} {m : FlashMem} {t : Testbed 3 l}

/-- **The invariant of the testbench**: the slave, with some observer of its pins, is in order, and
the flash follows its controller. -/
def Ok (T : TrstCycles) (mem : BitVec 32 → BitVec 8) (m : FlashMem) (t : Testbed 3 l) : Prop :=
  ∃ sf p, (t.slave sf).Transfer m T p ∧ (t.slave sf).DataOk m p ∧
    Follows mem (t.slave sf).ctrlAddr t.ctrl t.sim

/-- The controller in a phase of a transfer. -/
theorem ctrl_of_phase {s : Slave 3 l} {p : Phase} (h : s.InPhase T p) :
    (s.ctrl.state = .idle ∨ s.ctrl.InTick T ∧ s.wrap.flashStartReg = false) ∧
      (s.ctrl.state ≠ .idle → p = .running) := by
  have hst := h.flashStart
  have hc := h.ctrl
  cases p
  case running => exact ⟨.inr ⟨hc.1, hst⟩, fun _ => rfl⟩
  case landed => exact ⟨.inl hc.1, fun hne => absurd hc.1 hne⟩
  all_goals exact ⟨.inl hc, fun hne => absurd hc hne⟩

/-- The edge that samples `di` is that of the slave, when its flash drives `di`. -/
theorem slave_edge {sf : SpiFlash} {x : XipIn} {di : BitVec 4} {f : FlashSim}
    (hdi : sf.di m t.pins di = di) :
    ({ t with sim := f }.edge T di (.clock x)).slave (sf.step t.pins) =
      (t.slave sf).clock m T { x with junk := di } := by
  rw [Slave.clock]
  change _ = Slave.mk _ _ (t.ctrl.step T t.wrap.flashStartReg (sf.di m t.pins di)) _
  rw [hdi]
  rfl

/-- An iteration in which both calls return. -/
theorem step_eq {e : Xip.Event} {f f' : FlashSim} {di o : BitVec 4}
    (h : t.sim.call t.pins = some (f, di))
    (h' : f.call ({ t with sim := f }.edge T di e).pins = some (f', o)) :
    t.step T e = some { { t with sim := f }.edge T di e with sim := f' } := by
  have hsim : ({ t with sim := f }.edge T di e).sim = f := by cases e <;> rfl
  rw [step, h, Option.bind_some]
  simp only [hsim, h', Option.map_some]

/-- **Step lemma for the testbench.** -/
theorem Ok.step (hmem : ∀ y : BitVec 24, mem (y.setWidth 32) = m y) (h : t.Ok T mem m)
    (e : Xip.Event) : ∃ t', t.step T e = some t' ∧ t'.Ok T mem m := by
  obtain ⟨sf, p, ht, hd, hf⟩ := h
  obtain ⟨hctrl, hrun⟩ := ctrl_of_phase ht.phase
  cases e with
  | reset =>
    obtain ⟨g, o, hg, g', o', hg', hf'⟩ :=
      hf.reset (b := (t.slave sf).reset.ctrlAddr) (hctrl.imp_right And.left)
    obtain ⟨q, ht', hd'⟩ := Slave.dataOk_step (T := T) ⟨p, ht, hd⟩ .reset
    exact ⟨_, step_eq hg hg', .deselected, q, ht', hd', hf'⟩
  | clock x =>
    have haddr : t.ctrl.state ≠ .idle →
        ((t.slave sf).clock m T x).ctrlAddr = (t.slave sf).ctrlAddr := by
      intro hne
      refine Slave.ctrlAddr_clock ?_
      rw [ht.phase.fetching, hrun hne]
      rfl
    obtain ⟨g, di, hg, hedge⟩ := hf.step t.wrap.flashStartReg hctrl haddr
    obtain ⟨g', o', hg', hf'⟩ := hedge di
    -- what the edge samples is what an observer of the pins expects
    have hdi : sf.di m t.pins di = di := by
      by_cases hact : t.ctrl.active = true
      · have hne : t.ctrl.state ≠ .idle := by
          intro hi
          rw [FlashCtrl.active, hi] at hact
          cases hact
        have hp := hrun hne
        subst hp
        have hcall := hf.call_active hact
        rw [hg, Option.some.injEq, Prod.mk.injEq] at hcall
        rw [hcall.2]
        exact hf.di hmem hact (ht.tracks rfl) ht.phase.ctrl.1
      · rw [SpiFlash.di, if_neg]
        rintro ⟨hcs, -⟩
        rw [Bool.not_eq_true] at hact
        change (!t.ctrl.active) = false at hcs
        rw [hact] at hcs
        cases hcs
    have hslave := slave_edge (T := T) (x := x) (f := g) hdi
    obtain ⟨q, ht', hd'⟩ := Slave.dataOk_step (T := T) ⟨p, ht, hd⟩ (.clock { x with junk := di })
    change (t.slave sf |>.clock m T { x with junk := di }).Transfer m T q at ht'
    change (t.slave sf |>.clock m T { x with junk := di }).DataOk m q at hd'
    rw [← hslave] at ht' hd'
    exact ⟨_, step_eq hg hg', sf.step t.pins, q, ht', hd', hf'⟩

/-- What the flash holds of an image file. -/
def image (file : List (BitVec 8)) : FlashMem := fun y => file.getD y.toNat 0xFF

theorem load_image (f : FlashSim) (file : List (BitVec 8)) (y : BitVec 24) :
    (f.load file).mem (y.setWidth 32) = image file y := by
  have hy : (y.setWidth 32).toNat = y.toNat := by
    have := y.isLt
    rw [BitVec.toNat_setWidth]
    omega
  simp only [load, hy, y.isLt, if_true, image]

/-- The invariant at power-on, whatever is left uninitialised. -/
theorem ok_powerOn (mem : BitVec 32 → BitVec 8) (pmem : BitVec 8 → BitVec 8)
    (addr count : BitVec 32) (file : List (BitVec 8)) :
    (powerOn 3 l ((FlashSim.init mem pmem addr count).load file)).Ok T
      ((FlashSim.init mem pmem addr count).load file).mem (image file) := by
  obtain ⟨p, ht, hd⟩ := Slave.exists_dataOk (m := image file) (T := T) (l := l)
    (fun _ => .reset) 0
  have hcold : Cold ((FlashSim.init mem pmem addr count).load file) :=
    ⟨rfl, .inl rfl, by simp [continuous, load, FlashSim.init]⟩
  refine ⟨.deselected, p, ht, hd, ⟨rfl, rfl, rfl⟩, fun hact => ?_, .inr ⟨rfl, hcold⟩⟩
  cases hact

theorem exists_run (hmem : ∀ y : BitVec 24, mem (y.setWidth 32) = m y) (h : t.Ok T mem m)
    (e : ℕ → Xip.Event) (n : ℕ) : ∃ t', t.run T e n = some t' ∧ t'.Ok T mem m := by
  induction n with
  | zero => exact ⟨t, rfl, h⟩
  | succ n ih =>
    obtain ⟨t', ht', hok⟩ := ih
    obtain ⟨t'', ht'', hok'⟩ := hok.step hmem (e n)
    refine ⟨t'', ?_, hok'⟩
    rw [run, ht', Option.bind_some, ht'']

/-- **Reads return the image.** Whatever file the simulated flash is loaded with, whatever its
uninitialised fields hold, and whatever reads, prefetch hints and warm resets come at any time, no
assertion of the flash fails, its contents stay, and every read data phase that ends has the word of
the file at its address. -/
theorem reads_image (T : TrstCycles) (l : ℕ) (file : List (BitVec 8))
    (mem : BitVec 32 → BitVec 8) (pmem : BitVec 8 → BitVec 8) (addr count : BitVec 32)
    (e : ℕ → Xip.Event) (n : ℕ) (en : Bool) :
    ∃ t, (powerOn 3 l ((FlashSim.init mem pmem addr count).load file)).run T e n = some t ∧
      t.sim.mem = ((FlashSim.init mem pmem addr count).load file).mem ∧
      (t.wrap.dphaseActive = true → (t.slave .deselected).hreadyOut en = true →
        (t.slave .deselected).hrdata en = flashWord (image file) t.wrap.dphaseAddr) := by
  obtain ⟨t, hrun, sf, p, -, hd, hf⟩ := exists_run (load_image _ file)
    (ok_powerOn (T := T) (l := l) mem pmem addr count file) e n
  refine ⟨t, hrun, hf.steady.mem, fun hact hready => ?_⟩
  rw [Slave.hreadyOut, if_pos (show (t.slave .deselected).wrap.dphaseActive = true from hact)]
    at hready
  exact Dmc.cpuData_eq hd.dmc hd.early hready

end Testbed

end KwsSoc.Sim
