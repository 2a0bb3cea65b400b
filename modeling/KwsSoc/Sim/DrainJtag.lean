import KwsSoc.Lib.Buffer

/-! # The JTAG socket of the simulator

A model of `drain_jtag` in `kws_soc_vpi.cpp`, which the main loop calls once a cycle: a refill of
the receive buffer when it is empty, and then bytes up to the first pin write. `recv` is an argument
of the call (`none` while nothing is ready), `send` transmits what it is given, and `top->tdo` does
not change before the pin write. The replay and dump files are in `JtagReplay`. -/

namespace KwsSoc.Sim

/-- A byte of the socket. -/
abbrev Byte := BitVec 8

/-- The byte of a character. -/
def ascii (c : Char) : Byte := .ofNat 8 c.toNat

/-- `JTAG_RX_BUF`. -/
abbrev jtagRxBuf : ℕ := 4096

/-- `JTAG_TX_BUF`. -/
abbrev jtagTxBuf : ℕ := 4096

/-- A pin write: of `tck`, `tms` and `tdi`, or of `trst_n`. -/
inductive PinWrite
  | tap (tck tms tdi : Bool)
  | trst (trstN : Bool)
  deriving DecidableEq

/-- What a byte makes the simulator do. -/
inductive Event
  | write (pins : PinWrite)
  | answer (tdo : Bool)
  deriving DecidableEq

/-- The buffers of `JtagCtx`. -/
structure JtagCtx where
  rxbuf : Buffer Byte jtagRxBuf
  txbuf : Buffer Byte jtagTxBuf
  rxPtr : ℕ
  rxRemaining : ℕ
  txPtr : ℕ

/-- A call on its way: the buffers, what it has sent, and what it has done. -/
structure Pass where
  jc : JtagCtx
  sent : List Byte
  events : List Event

/-- `jtag_flush_tx`. -/
def jtagFlushTx (p : Pass) : Option Pass :=
  if p.jc.txPtr > 0 then do
    let bytes ← p.jc.txbuf.read 0 p.jc.txPtr
    return { p with jc := { p.jc with txPtr := 0 }, sent := p.sent ++ bytes }
  else some p

/-- An executed pin write. -/
def Pass.write (p : Pass) (pins : PinWrite) : Pass := { p with events := p.events ++ [.write pins] }

/-- A sample of `tdo`, in the transmit buffer. -/
def Pass.sample (p : Pass) (tdo : Bool) : Option Pass := do
  let txbuf ← p.jc.txbuf.store p.jc.txPtr [if tdo then ascii '1' else ascii '0']
  let p := { p with
    jc := { p.jc with txbuf, txPtr := p.jc.txPtr + 1 }, events := p.events ++ [.answer tdo] }
  if p.jc.txPtr ≥ jtagTxBuf then jtagFlushTx p else some p

/-- The loop of `drain_jtag`, with `rx_remaining` bytes left. -/
def drainLoop (tdo : Bool) : ℕ → Pass → Option (Pass × Bool)
  | 0, p => (jtagFlushTx p).map (·, false)
  | remaining + 1, p => do
    let c ← p.jc.rxbuf.get p.jc.rxPtr
    let p := { p with jc := { p.jc with rxPtr := p.jc.rxPtr + 1, rxRemaining := remaining } }
    if ascii '0' ≤ c ∧ c ≤ ascii '7' then
      let mask := c - ascii '0'
      let p := p.write (.tap (mask.getLsbD 2) (mask.getLsbD 1) (mask.getLsbD 0))
      (jtagFlushTx p).map (·, false)
    else if c = ascii 'r' ∨ c = ascii 's' then
      (jtagFlushTx (p.write (.trst true))).map (·, false)
    else if c = ascii 't' ∨ c = ascii 'u' then
      (jtagFlushTx (p.write (.trst false))).map (·, false)
    else if c = ascii 'R' then do
      let p ← p.sample tdo
      drainLoop tdo remaining p
    else if c = ascii 'B' ∨ c = ascii 'b' then drainLoop tdo remaining p
    else if c = ascii 'Q' then (jtagFlushTx p).map (·, true)
    else drainLoop tdo remaining p

/-- `drain_jtag`: what it has done, and its result. -/
def drainJtag (tdo : Bool) (recv : Option (List Byte)) (jc : JtagCtx) : Option (Pass × Bool) :=
  if jc.rxRemaining = 0 then
    match recv with
    -- nothing is ready, or the peer has closed and is waited for
    | none | some [] => some (⟨{ jc with rxPtr := 0 }, [], []⟩, false)
    | some (b :: bs) => do
      let chunk := b :: bs
      let rxbuf ← jc.rxbuf.store 0 chunk
      drainLoop tdo chunk.length
        ⟨{ jc with rxbuf, rxPtr := 0, rxRemaining := chunk.length }, [], []⟩
  else drainLoop tdo jc.rxRemaining ⟨jc, [], []⟩

/-! ## The main loop -/

/-- The simulator and its socket: the chunks and empty polls that `recv` is still to return, what
each call has done, what has been sent, and whether the main loop has been left. -/
structure Line where
  jc : JtagCtx
  polls : List (Option (List Byte))
  log : List (List Event)
  sent : List Byte
  quit : Bool

/-- One cycle of the main loop. `recv` is called only when the receive buffer is empty. -/
def Line.step (tdo : Bool) (l : Line) : Option Line :=
  if l.quit then some l
  else do
    let (p, quit) ← drainJtag tdo (l.polls.headD none) l.jc
    return {
      jc := p.jc
      polls := if l.jc.rxRemaining = 0 then l.polls.tail else l.polls
      log := l.log ++ [p.events]
      sent := l.sent ++ p.sent
      quit }

/-- `n` cycles, with `top->tdo` as it is in each of them. -/
def Line.run (tdo : ℕ → Bool) (l : Line) : ℕ → Option Line
  | 0 => some l
  | n + 1 => do
    let l ← l.run tdo n
    l.step (tdo n)

/-- The buffers as `JtagCtx` initialises them; what they hold does not matter. -/
def JtagCtx.start (rxbuf : Buffer Byte jtagRxBuf) (txbuf : Buffer Byte jtagTxBuf) : JtagCtx :=
  ⟨rxbuf, txbuf, 0, 0, 0⟩

/-- A simulator that has just been connected. -/
def Line.start (rxbuf : Buffer Byte jtagRxBuf) (txbuf : Buffer Byte jtagTxBuf)
    (polls : List (Option (List Byte))) : Line :=
  ⟨.start rxbuf txbuf, polls, [], [], false⟩

end KwsSoc.Sim
