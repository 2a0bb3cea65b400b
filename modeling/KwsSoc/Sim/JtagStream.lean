import KwsSoc.Sim.DrainJtag

/-! # The bit-bang stream

What the debugger sends means a list of commands, up to the first `Q` (`commands`). One call of
`drain_jtag` takes a prefix of the unread bytes, which ends with the first pin write (`take`,
`drainLoop_eq`). **`performed_run`**: however `recv` cuts the stream, the calls together do what the
stream says, and leave the loop when it says so. -/

namespace KwsSoc.Sim

/-! ## The protocol -/

/-- What a byte means. -/
inductive Command
  | write (pins : PinWrite)
  | read
  | quit
  | skip
  deriving DecidableEq

/-- The command of a byte. Unknown bytes and blinks mean nothing. -/
def decode (c : Byte) : Command :=
  if ascii '0' ≤ c ∧ c ≤ ascii '7' then
    let mask := c - ascii '0'
    .write (.tap (mask.getLsbD 2) (mask.getLsbD 1) (mask.getLsbD 0))
  else if c = ascii 'r' ∨ c = ascii 's' then .write (.trst true)
  else if c = ascii 't' ∨ c = ascii 'u' then .write (.trst false)
  else if c = ascii 'R' then .read
  else if c = ascii 'Q' then .quit
  else .skip

/-- The pin writes and reads of a stream up to its first `Q`. -/
def commands : List Byte → List Command
  | [] => []
  | c :: cs =>
    match decode c with
    | .write pins => .write pins :: commands cs
    | .read => .read :: commands cs
    | .quit => []
    | .skip => commands cs

/-- The command that an event carries out. -/
def Event.command : Event → Command
  | .write pins => .write pins
  | .answer _ => .read

/-- Whether an event is a pin write. -/
def Event.isWrite : Event → Bool
  | .write _ => true
  | .answer _ => false

/-- The bytes that answer the reads. -/
def answers : List Event → List Byte
  | [] => []
  | .write _ :: evs => answers evs
  | .answer tdo :: evs => (if tdo then ascii '1' else ascii '0') :: answers evs

theorem answers_append (xs ys : List Event) : answers (xs ++ ys) = answers xs ++ answers ys := by
  induction xs with
  | nil => rfl
  | cons e xs ih => cases e <;> simp [answers, ih]

theorem decode_eq_quit_iff {c : Byte} : decode c = .quit ↔ c = ascii 'Q' := by
  revert c
  decide

/-- Commands go on behind bytes without a `Q`. -/
theorem commands_append {xs : List Byte} (hq : ascii 'Q' ∉ xs) (ys : List Byte) :
    commands (xs ++ ys) = commands xs ++ commands ys := by
  induction xs with
  | nil => rfl
  | cons c xs ih =>
    have hxs : ascii 'Q' ∉ xs := fun h => hq (List.mem_cons_of_mem c h)
    have hne : decode c ≠ .quit := fun h => hq (by simp [decode_eq_quit_iff.mp h])
    simp only [List.cons_append, commands, ih hxs]
    cases hd : decode c with
    | quit => exact absurd hd hne
    | write pins => rfl
    | read => rfl
    | skip => rfl

/-- Nothing counts behind a `Q`. -/
theorem commands_append_of_mem {xs : List Byte} (hq : ascii 'Q' ∈ xs) (ys : List Byte) :
    commands (xs ++ ys) = commands xs := by
  induction xs with
  | nil => cases hq
  | cons c xs ih =>
    simp only [List.cons_append, commands]
    rcases List.mem_cons.mp hq with rfl | hxs
    · rw [decode_eq_quit_iff.mpr rfl]
    · rw [ih hxs]

/-! ## One call, on lists -/

/-- What a call does with the unread bytes: the events, the bytes it leaves, and its result. -/
structure Taken where
  events : List Event
  rest : List Byte
  quit : Bool

/-- Bytes are taken up to the first pin write. -/
def take (tdo : Bool) : List Byte → Taken
  | [] => ⟨[], [], false⟩
  | c :: cs =>
    match decode c with
    | .write pins => ⟨[.write pins], cs, false⟩
    | .read => { take tdo cs with events := .answer tdo :: (take tdo cs).events }
    | .quit => ⟨[], cs, true⟩
    | .skip => take tdo cs

/-- **A call takes a prefix of the bytes**, and does what it says. -/
theorem take_spec (tdo : Bool) (cs : List Byte) :
    ∃ done, cs = done ++ (take tdo cs).rest ∧
      (take tdo cs).events.map Event.command = commands done ∧
      ((take tdo cs).quit = true ↔ ascii 'Q' ∈ done) := by
  induction cs with
  | nil => exact ⟨[], rfl, rfl, by simp [take]⟩
  | cons c cs ih =>
    obtain ⟨done, hcs, hevents, hquit⟩ := ih
    have hQ : ascii 'Q' = c ↔ decode c = .quit := by rw [decode_eq_quit_iff, eq_comm]
    cases hd : decode c with
    | write pins =>
      refine ⟨[c], by simp [take, hd], by simp [take, hd, commands, Event.command], ?_⟩
      simp [take, hd, hQ]
    | read =>
      refine ⟨c :: done, ?_, ?_, ?_⟩
      · simpa [take, hd] using hcs
      · simpa [take, hd, commands, Event.command] using hevents
      · simpa [take, hd, hQ] using hquit
    | quit => exact ⟨[c], by simp [take, hd], by simp [take, hd, commands], by simp [take, hd, hQ]⟩
    | skip =>
      refine ⟨c :: done, ?_, ?_, ?_⟩
      · simpa [take, hd] using hcs
      · simpa [take, hd, commands] using hevents
      · simpa [take, hd, hQ] using hquit

/-- A call takes at least one byte, if there is any. -/
theorem length_rest_take (tdo : Bool) (cs : List Byte) :
    (take tdo cs).rest.length ≤ cs.length - 1 := by
  induction cs with
  | nil => exact le_rfl
  | cons c cs ih =>
    rw [take]
    split <;> simp only [List.length_cons] <;> omega

/-- **At most one pin write in a call.** -/
theorem writes_take (tdo : Bool) (cs : List Byte) :
    ((take tdo cs).events.filter Event.isWrite).length ≤ 1 := by
  induction cs with
  | nil => exact Nat.zero_le 1
  | cons c cs ih =>
    rw [take]
    split
    · exact le_rfl
    · exact ih
    · exact Nat.zero_le 1
    · exact ih

/-- Every read of a call is answered with `tdo` as it is in that call. -/
theorem answer_take {tdo b : Bool} {cs : List Byte} (hb : .answer b ∈ (take tdo cs).events) :
    b = tdo := by
  induction cs with
  | nil => cases hb
  | cons c cs ih =>
    rw [take] at hb
    split at hb
    · simp at hb
    · rcases List.mem_cons.mp hb with heq | hb
      · exact Event.answer.inj heq
      · exact ih hb
    · cases hb
    · exact ih hb

/-! ## One call, on the buffers -/

/-- The bytes that have been received and not been taken yet. -/
structure Unread (jc : JtagCtx) (xs : List Byte) : Prop where
  length_eq : xs.length = jc.rxRemaining
  isPrefix : xs <+: jc.rxbuf.items.drop jc.rxPtr

theorem Unread.get {jc : JtagCtx} {c : Byte} {cs : List Byte} (h : Unread jc (c :: cs)) :
    jc.rxbuf.get jc.rxPtr = some c := by
  obtain ⟨tail, htail⟩ := h.isPrefix
  have hhead : (jc.rxbuf.items.drop jc.rxPtr)[0]? = some c := by rw [← htail]; rfl
  rwa [List.getElem?_drop, Nat.add_zero] at hhead

/-- The next byte is taken. -/
theorem Unread.next {jc : JtagCtx} {c : Byte} {cs : List Byte} (h : Unread jc (c :: cs)) :
    Unread { jc with rxPtr := jc.rxPtr + 1, rxRemaining := cs.length } cs := by
  refine ⟨rfl, ?_⟩
  obtain ⟨tail, htail⟩ := h.isPrefix
  refine ⟨tail, ?_⟩
  have hdrop : (jc.rxbuf.items.drop jc.rxPtr).drop 1 = cs ++ tail := by rw [← htail]; rfl
  rwa [List.drop_drop, eq_comm] at hdrop

/-- A flush sends all that waits. -/
theorem jtagFlushTx_eq {p : Pass} (hle : p.jc.txPtr ≤ jtagTxBuf) :
    jtagFlushTx p = some { p with
      jc := { p.jc with txPtr := 0 }, sent := p.sent ++ p.jc.txbuf.first p.jc.txPtr } := by
  rw [jtagFlushTx]
  by_cases hpos : p.jc.txPtr > 0
  · rw [if_pos hpos, p.jc.txbuf.read_first hle]
    rfl
  · obtain ⟨⟨rxbuf, txbuf, rxPtr, rxRemaining, txPtr⟩, sent, events⟩ := p
    obtain rfl : txPtr = 0 := Nat.eq_zero_of_not_pos hpos
    rw [if_neg hpos, Buffer.first, List.take_zero, List.append_nil]

/-- What has been sent, and what waits behind it. -/
def Pass.out (p : Pass) : List Byte := p.sent ++ p.jc.txbuf.first p.jc.txPtr

/-- A sample is put behind what waits, which is flushed when the buffer is full. -/
theorem Pass.sample_spec (p : Pass) (tdo : Bool) (hlt : p.jc.txPtr < jtagTxBuf) :
    ∃ p', p.sample tdo = some p' ∧ p'.out = p.out ++ answers [.answer tdo] ∧
      p'.events = p.events ++ [.answer tdo] ∧ p'.jc.txPtr < jtagTxBuf ∧
      p'.jc.rxbuf = p.jc.rxbuf ∧ p'.jc.rxPtr = p.jc.rxPtr ∧
      p'.jc.rxRemaining = p.jc.rxRemaining := by
  have hroom : p.jc.txPtr + [if tdo then ascii '1' else ascii '0'].length ≤ jtagTxBuf :=
    Nat.succ_le_of_lt hlt
  obtain ⟨txbuf, hstore, hfirst, -⟩ := p.jc.txbuf.store_first hroom
  rw [sample, hstore]
  simp only [Option.bind_eq_bind, Option.bind_some]
  split
  · next hfull =>
    rw [jtagFlushTx_eq (Nat.succ_le_of_lt hlt)]
    refine ⟨_, rfl, ?_, rfl, (by decide : 0 < jtagTxBuf), rfl, rfl, rfl⟩
    show p.sent ++ txbuf.first (p.jc.txPtr + 1) ++ [] = _
    rw [out, List.append_nil, List.append_assoc]
    exact congrArg (p.sent ++ ·) hfirst
  · next hroom =>
    refine ⟨_, rfl, ?_, rfl, Nat.lt_of_not_le hroom, rfl, rfl, rfl⟩
    rw [out, out, List.append_assoc]
    exact congrArg (p.sent ++ ·) hfirst

section Loop

variable (tdo : Bool) {c : Byte} {n : ℕ} {p : Pass}

/-- The pass after the next byte has been read. -/
def Pass.advance (p : Pass) (n : ℕ) : Pass :=
  { p with jc := { p.jc with rxPtr := p.jc.rxPtr + 1, rxRemaining := n } }

/-- **A round of the loop** does what the byte means. -/
theorem drainLoop_succ (hc : p.jc.rxbuf.get p.jc.rxPtr = some c) :
    drainLoop tdo (n + 1) p =
      match decode c with
      | .write pins => (jtagFlushTx ((p.advance n).write pins)).map (·, false)
      | .read => (p.advance n).sample tdo >>= drainLoop tdo n
      | .quit => (jtagFlushTx (p.advance n)).map (·, true)
      | .skip => drainLoop tdo n (p.advance n) := by
  have hblink (h : c = ascii 'B' ∨ c = ascii 'b') : c ≠ ascii 'Q' := by
    rcases h with rfl | rfl <;> decide
  rw [drainLoop, hc, decode]
  simp only [Option.bind_eq_bind, Option.bind_some]
  split_ifs <;> first | rfl | simp_all

/-- **The loop takes the unread bytes.** -/
theorem drainLoop_eq {xs : List Byte} (hu : Unread p.jc xs) (htx : p.jc.txPtr < jtagTxBuf) :
    ∃ jc, drainLoop tdo xs.length p =
        some (⟨jc, p.out ++ answers (take tdo xs).events, p.events ++ (take tdo xs).events⟩,
          (take tdo xs).quit) ∧
      Unread jc (take tdo xs).rest ∧ jc.txPtr = 0 := by
  -- every return flushes what waits
  have hflush (q : Pass) (hq : q.jc.txPtr < jtagTxBuf) (quit : Bool) :
      (jtagFlushTx q).map (·, quit) =
        some (⟨{ q.jc with txPtr := 0 }, q.out, q.events⟩, quit) := by
    rw [jtagFlushTx_eq hq.le]
    rfl
  induction xs generalizing p with
  | nil =>
    refine ⟨{ p.jc with txPtr := 0 }, ?_, ⟨hu.length_eq, hu.isPrefix⟩, rfl⟩
    rw [List.length_nil, drainLoop, hflush p htx]
    simp [take, answers]
  | cons c cs ih =>
    have hnext := hu.next
    rw [List.length_cons, drainLoop_succ tdo hu.get]
    cases hd : decode c with
    | write pins =>
      refine ⟨{ (p.advance cs.length).jc with txPtr := 0 }, ?_, ?_, rfl⟩
      · show (jtagFlushTx ((p.advance cs.length).write pins)).map (·, false) = _
        rw [hflush ((p.advance cs.length).write pins) htx]
        simp [take, hd, answers, Pass.out, Pass.write, Pass.advance]
      · simp only [take, hd]
        exact ⟨hnext.length_eq, hnext.isPrefix⟩
    | read =>
      obtain ⟨p', hsample, hout, hevents, htx', hrx, hptr, hrem⟩ :=
        (p.advance cs.length).sample_spec tdo htx
      have hu' : Unread p'.jc cs := by
        refine ⟨hnext.length_eq.trans hrem.symm, ?_⟩
        rw [hrx, hptr]
        exact hnext.isPrefix
      obtain ⟨jc, hloop, hrest, hzero⟩ := ih hu' htx'
      refine ⟨jc, ?_, by simpa only [take, hd] using hrest, hzero⟩
      show ((p.advance cs.length).sample tdo >>= drainLoop tdo cs.length) = _
      rw [hsample, Option.bind_eq_bind, Option.bind_some, hloop, hout, hevents]
      simp [take, hd, answers, Pass.out, Pass.advance]
    | quit =>
      refine ⟨{ (p.advance cs.length).jc with txPtr := 0 }, ?_, ?_, rfl⟩
      · show (jtagFlushTx (p.advance cs.length)).map (·, true) = _
        rw [hflush (p.advance cs.length) htx]
        simp [take, hd, answers, Pass.out, Pass.advance]
      · simp only [take, hd]
        exact ⟨hnext.length_eq, hnext.isPrefix⟩
    | skip =>
      obtain ⟨jc, hloop, hrest, hzero⟩ := ih (p := p.advance cs.length) hnext htx
      refine ⟨jc, ?_, by simpa only [take, hd] using hrest, hzero⟩
      simp only [hloop, take, hd]
      rfl

end Loop

/-- The bytes of the chunks that are still to come. -/
def received : List (Option (List Byte)) → List Byte
  | [] => []
  | poll :: polls => poll.getD [] ++ received polls

/-- A chunk is received into the buffer. -/
theorem unread_store (jc : JtagCtx) {chunk : List Byte} (hlen : chunk.length ≤ jtagRxBuf) :
    ∃ rxbuf, jc.rxbuf.store 0 chunk = some rxbuf ∧
      Unread { jc with rxbuf, rxPtr := 0, rxRemaining := chunk.length } chunk := by
  obtain ⟨rxbuf, hstore, -, hitems⟩ :=
    jc.rxbuf.store_first (by omega : 0 + chunk.length ≤ jtagRxBuf)
  refine ⟨rxbuf, hstore, rfl, jc.rxbuf.items.drop (0 + chunk.length), ?_⟩
  rw [List.drop_zero, hitems]
  rfl

/-- The bytes that a call finds: what is left of the last chunk, or else what `recv` returns. -/
def available (xs : List Byte) (recv : Option (List Byte)) : List Byte :=
  if xs = [] then recv.getD [] else xs

/-- **A call of `drain_jtag`** takes the bytes that it finds, and leaves nothing unsent. -/
theorem drainJtag_spec (tdo : Bool) {recv : Option (List Byte)} {jc : JtagCtx} {xs : List Byte}
    (hu : Unread jc xs) (htx : jc.txPtr = 0)
    (hrecv : ∀ chunk, recv = some chunk → chunk.length ≤ jtagRxBuf) :
    let t := take tdo (available xs recv)
    ∃ jc', drainJtag tdo recv jc = some (⟨jc', answers t.events, t.events⟩, t.quit) ∧
      Unread jc' t.rest ∧ jc'.txPtr = 0 := by
  have hout (jc : JtagCtx) (htx : jc.txPtr = 0) : (⟨jc, [], []⟩ : Pass).out = [] := by
    simp [Pass.out, htx, Buffer.first]
  have hlt (jc : JtagCtx) (htx : jc.txPtr = 0) : jc.txPtr < jtagTxBuf := by
    rw [htx]
    decide
  unfold drainJtag
  by_cases hnil : xs = []
  · have hzero : jc.rxRemaining = 0 := by rw [← hu.length_eq, hnil, List.length_nil]
    rw [if_pos hzero, available, if_pos hnil]
    rcases recv with _ | _ | ⟨b, bs⟩
    · exact ⟨{ jc with rxPtr := 0 }, rfl, ⟨hzero.symm, List.nil_prefix⟩, htx⟩
    · exact ⟨{ jc with rxPtr := 0 }, rfl, ⟨hzero.symm, List.nil_prefix⟩, htx⟩
    · -- a chunk is taken from its first byte on
      obtain ⟨rxbuf, hstore, hu'⟩ := unread_store jc (hrecv _ rfl)
      obtain ⟨jc', hloop, hrest, htx'⟩ := drainLoop_eq tdo
        (p := ⟨{ jc with rxbuf, rxPtr := 0, rxRemaining := (b :: bs).length }, [], []⟩) hu'
        (hlt jc htx)
      rw [hout { jc with rxbuf, rxPtr := 0, rxRemaining := (b :: bs).length } htx,
        List.nil_append, List.nil_append] at hloop
      refine ⟨jc', ?_, hrest, htx'⟩
      simp only [hstore, Option.bind_eq_bind, Option.bind_some, hloop]
      rfl
  · have hpos : jc.rxRemaining ≠ 0 := by
      rw [← hu.length_eq]
      exact fun h => hnil (List.eq_nil_of_length_eq_zero h)
    obtain ⟨jc', hloop, hrest, htx'⟩ := drainLoop_eq tdo (p := ⟨jc, [], []⟩) hu (hlt jc htx)
    rw [hout _ htx, List.nil_append, List.nil_append] at hloop
    rw [if_neg hpos, available, if_neg hnil, ← hu.length_eq]
    exact ⟨jc', hloop, hrest, htx'⟩

/-! ## Runs -/

/-- What is left to do: bytes, and polls. -/
def Line.left (l : Line) : ℕ := l.jc.rxRemaining + (received l.polls).length + l.polls.length

/-- **What `n` calls have done with a stream**: the events are the commands of the bytes taken so
far, which end at a `Q`; the others are still unread, in the buffer or in the socket; every read has
been answered. -/
structure Performed (stream : List Byte) (tdo : ℕ → Bool) (n : ℕ) (l : Line) : Prop where
  /-- Every byte has been taken, or is in the receive buffer, or is still to come. -/
  taken : ∃ done xs, stream = done ++ xs ++ received l.polls ∧ Unread l.jc xs ∧
    l.log.flatten.map Event.command = commands done ∧ (l.quit = true ↔ ascii 'Q' ∈ done)
  /-- A call writes the pins once at most. -/
  onePerCall : ∀ evs ∈ l.log, (evs.filter Event.isWrite).length ≤ 1
  /-- The answers sent are those to the reads, in order. -/
  answered : l.sent = answers l.log.flatten
  /-- A read is answered with `tdo` as it is in its call. -/
  sampled : ∀ k evs, l.log[k]? = some evs → ∀ b, .answer b ∈ evs → b = tdo k
  calls : l.quit = false → l.log.length = n
  flushed : l.jc.txPtr = 0
  chunks : ∀ chunk, some chunk ∈ l.polls → chunk.length ≤ jtagRxBuf

section Runs

variable {stream : List Byte} {tdo : ℕ → Bool} {n : ℕ} {l : Line}

/-- The bytes that a call finds are the next ones of the stream. -/
theorem available_append (xs : List Byte) (polls : List (Option (List Byte))) :
    let polls' := if xs = [] then polls.tail else polls
    available xs (polls.headD none) ++ received polls' = xs ++ received polls ∧
      ((available xs (polls.headD none)).length - 1 + (received polls').length + polls'.length ≤
        xs.length + (received polls).length + polls.length - 1) := by
  by_cases hnil : xs = []
  · subst hnil
    cases polls with
    | nil => exact ⟨rfl, le_rfl⟩
    | cons poll polls =>
      refine ⟨rfl, ?_⟩
      simp only [available, if_true, List.headD_cons, List.tail_cons, received, List.length_append,
        List.length_cons, List.length_nil]
      omega
  · have hpos := List.length_pos_of_ne_nil hnil
    simp only [available, if_neg hnil, true_and]
    omega

/-- What the next call receives fits into the buffer. -/
theorem Performed.length_le (h : Performed stream tdo n l) (chunk : List Byte)
    (hchunk : l.polls.headD none = some chunk) : chunk.length ≤ jtagRxBuf := by
  cases hp : l.polls with
  | nil =>
    rw [hp] at hchunk
    cases hchunk
  | cons poll polls =>
    rw [hp] at hchunk
    refine h.chunks chunk ?_
    rw [hp, ← (show poll = some chunk from hchunk)]
    exact List.mem_cons_self

/-- The next call samples `tdo` as it is then. -/
theorem Performed.sampled_append (h : Performed stream tdo n l) (hq : l.quit = false)
    (cs : List Byte) (k : ℕ) (evs : List Event)
    (hk : (l.log ++ [(take (tdo n) cs).events])[k]? = some evs) (b : Bool) (hb : .answer b ∈ evs) :
    b = tdo k := by
  rcases Nat.lt_or_ge k l.log.length with hlt | hge
  · rw [List.getElem?_append_left hlt] at hk
    exact h.sampled k evs hk b hb
  · rw [List.getElem?_append_right hge, List.getElem?_singleton] at hk
    split at hk
    · next hzero =>
      cases hk
      have hkn : k = n := by
        have := h.calls hq
        omega
      rw [answer_take hb, hkn]
    · cases hk

/-- **One call more.** -/
theorem Performed.step (h : Performed stream tdo n l) :
    ∃ l', l.step (tdo n) = some l' ∧ Performed stream tdo (n + 1) l' ∧
      (l'.quit = true ∨ l'.left ≤ l.left - 1) := by
  obtain ⟨done, xs, hstream, hu, hevents, hquit⟩ := h.taken
  cases hq : l.quit with
  | true =>
    refine ⟨l, by rw [Line.step, hq]; rfl, ⟨h.taken, h.onePerCall, h.answered, h.sampled, ?_,
      h.flushed, h.chunks⟩, .inl hq⟩
    rw [hq]
    exact fun h => absurd h (by decide)
  | false =>
    obtain ⟨jc, hcall, hrest, htx⟩ := drainJtag_spec (tdo n) hu h.flushed h.length_le
    obtain ⟨havail, hleft⟩ := available_append xs l.polls
    have hpolls : (if l.jc.rxRemaining = 0 then l.polls.tail else l.polls) =
        if xs = [] then l.polls.tail else l.polls := by
      simp only [← hu.length_eq, List.length_eq_zero_iff]
    generalize available xs (l.polls.headD none) = ys at hcall hrest havail hleft
    obtain ⟨d, hd, hdevents, hdquit⟩ := take_spec (tdo n) ys
    have hdone : ascii 'Q' ∉ done := fun hmem => by
      rw [hquit.mpr hmem] at hq
      cases hq
    refine ⟨_, by rw [Line.step, hq, hcall]; rfl, ⟨⟨done ++ d, _, ?_, hrest, ?_, ?_⟩, ?_, ?_, ?_, ?_,
      htx, ?_⟩, .inr ?_⟩
    · rw [hstream, List.append_assoc, ← havail, hpolls]
      conv_lhs => rw [hd]
      simp only [List.append_assoc]
    · rw [List.flatten_append, List.map_append, hevents, commands_append hdone, ← hdevents]
      simp
    · rw [hdquit, List.mem_append]
      simp [hdone]
    · intro evs hevs
      rcases List.mem_append.mp hevs with hevs | hevs
      · exact h.onePerCall evs hevs
      · rw [List.mem_singleton.mp hevs]
        exact writes_take (tdo n) ys
    · rw [List.flatten_append, answers_append, h.answered]
      simp
    · exact h.sampled_append hq ys
    · intro _
      rw [List.length_append, h.calls hq]
      rfl
    · intro chunk hchunk
      refine h.chunks chunk ?_
      dsimp only at hchunk
      split at hchunk
      · exact List.mem_of_mem_tail hchunk
      · exact hchunk
    · have hlen := length_rest_take (tdo n) ys
      have hrestlen := hrest.length_eq
      have hxs := hu.length_eq
      simp only [Line.left, hpolls]
      omega

/-- A simulator that has just been connected has done nothing. -/
theorem performed_start (tdo : ℕ → Bool) {polls : List (Option (List Byte))}
    (rxbuf : Buffer Byte jtagRxBuf) (txbuf : Buffer Byte jtagTxBuf)
    (hchunks : ∀ chunk, some chunk ∈ polls → chunk.length ≤ jtagRxBuf) :
    Performed (received polls) tdo 0 (.start rxbuf txbuf polls) where
  taken := ⟨[], [], rfl, ⟨rfl, List.nil_prefix⟩, rfl, by simp [Line.start]⟩
  onePerCall _ hevs := absurd hevs (List.not_mem_nil)
  answered := rfl
  sampled _ _ hk := by simp [Line.start] at hk
  calls _ := rfl
  flushed := rfl
  chunks := hchunks

/-- **Every run** has done what it has taken, and each call leaves less to do. -/
theorem Performed.run (h : Performed stream tdo 0 l) (n : ℕ) :
    ∃ l', l.run tdo n = some l' ∧ Performed stream tdo n l' ∧
      (l'.quit = true ∨ l'.left ≤ l.left - n) := by
  induction n with
  | zero => exact ⟨l, rfl, h, .inr le_rfl⟩
  | succ n ih =>
    obtain ⟨l₁, hrun, h₁, hleft₁⟩ := ih
    obtain ⟨l₂, hstep, h₂, hleft₂⟩ := h₁.step
    refine ⟨l₂, by rw [Line.run, hrun]; exact hstep, h₂, ?_⟩
    rcases hleft₁ with hquit | hleft₁
    · -- the loop has been left already
      rw [Line.step, if_pos hquit] at hstep
      cases hstep
      exact .inl hquit
    · rcases hleft₂ with hquit | hleft₂
      · exact .inl hquit
      · exact .inr (by omega)

/-- A run with nothing left to do has taken the stream. -/
theorem Performed.complete (h : Performed stream tdo n l) (hleft : l.quit = true ∨ l.left = 0) :
    l.log.flatten.map Event.command = commands stream ∧
      (l.quit = true ↔ ascii 'Q' ∈ stream) := by
  obtain ⟨done, xs, hstream, hu, hevents, hquit⟩ := h.taken
  by_cases hq : ascii 'Q' ∈ done
  · -- what follows a `Q` does not matter
    rw [hevents, hstream, List.append_assoc, commands_append_of_mem hq]
    exact ⟨rfl, fun _ => List.mem_append_left _ hq, fun _ => hquit.mpr hq⟩
  · have hleft : l.left = 0 := hleft.resolve_left fun h => hq (hquit.mp h)
    have hlen := hu.length_eq
    rw [Line.left] at hleft
    obtain rfl : xs = [] := List.eq_nil_of_length_eq_zero (by omega)
    have hnil : received l.polls = [] := List.eq_nil_of_length_eq_zero (by omega)
    rw [hnil, List.append_nil, List.append_nil] at hstream
    rw [hstream]
    exact ⟨hevents, hquit⟩

end Runs

/-- **The bit-bang stream.** For every way `recv` cuts a stream, the calls carry out its commands in
order, with one pin write at most in a call and one answer for each read; no byte is lost, doubled
or moved; and when no more is to come, they have carried out all commands up to the first `Q`. -/
theorem performed_run (tdo : ℕ → Bool) (rxbuf : Buffer Byte jtagRxBuf)
    (txbuf : Buffer Byte jtagTxBuf) (polls : List (Option (List Byte)))
    (hchunks : ∀ chunk, some chunk ∈ polls → chunk.length ≤ jtagRxBuf) (n : ℕ) :
    ∃ l, (Line.start rxbuf txbuf polls).run tdo n = some l ∧
      Performed (received polls) tdo n l ∧
      ((received polls).length + polls.length ≤ n →
        l.log.flatten.map Event.command = commands (received polls) ∧
        (l.quit = true ↔ ascii 'Q' ∈ received polls)) := by
  obtain ⟨l, hrun, h, hleft⟩ := (performed_start tdo rxbuf txbuf hchunks).run n
  refine ⟨l, hrun, h, fun hn => h.complete (hleft.imp_right fun hleft => ?_)⟩
  have hstart : (Line.start rxbuf txbuf polls).left = (received polls).length + polls.length := by
    simp [Line.left, Line.start, JtagCtx.start]
  omega

/-- A read between two writes, in three chunks with an empty poll between them. -/
theorem performed_run_reads :
    (∀ chunk : List Byte, some chunk ∈ [some [ascii '3', ascii 'R'], none, some [ascii 'Q']] →
      chunk.length ≤ jtagRxBuf) ∧
    ∃ l, (Line.start (.fill jtagRxBuf 0) (.fill jtagTxBuf 0)
        [some [ascii '3', ascii 'R'], none, some [ascii 'Q']]).run (· = 1) 6 = some l ∧
      l.log.flatten.map Event.command = [.write (.tap false true true), .read] ∧
      l.quit = true := by
  have hchunks : ∀ chunk : List Byte,
      some chunk ∈ [some [ascii '3', ascii 'R'], none, some [ascii 'Q']] →
      chunk.length ≤ jtagRxBuf := by
    intro chunk hchunk
    simp only [List.mem_cons, Option.some.injEq, List.not_mem_nil, or_false, reduceCtorEq,
      false_or] at hchunk
    rcases hchunk with rfl | rfl <;> decide
  obtain ⟨l, hrun, -, hall⟩ := performed_run (· = 1) (.fill jtagRxBuf 0)
    (.fill jtagTxBuf 0) _ hchunks 6
  obtain ⟨hevents, hquit⟩ := hall (by decide)
  exact ⟨hchunks, l, hrun, hevents, hquit.mpr (by decide)⟩

end KwsSoc.Sim
