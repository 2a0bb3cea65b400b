import Mathlib.Algebra.Order.Ring.Int

/-! # `printf`

A model of `printf` in `test/common/uart_utils.c`. A format is the bytes in front of its
terminator; a word argument is an `int`, a `long` or a pointer; a string argument is the array that
it points into, or `NULL`. An `int` that overflows, a missing argument and a read outside an array
are undefined (`none`). -/

namespace KwsSoc.Firmware.Printf

/-- A `char`. -/
abbrev Byte := BitVec 8

/-- The byte of a character. -/
def ascii (c : Char) : Byte := .ofNat 8 c.toNat

/-- The bytes of a text. -/
def text (s : String) : List Byte := s.toList.map ascii

/-- An array of bytes; an object is smaller than half the address space. -/
structure CArray where
  bytes : List Byte
  length_lt : bytes.length < 2 ^ 31

/-- An argument. -/
inductive Arg
  | word (v : BitVec 32)
  | str (s : Option CArray)

/-- An addition of `int`s. -/
def addInt (a b : ℤ) : Option ℤ :=
  if -2 ^ 31 ≤ a + b ∧ a + b < 2 ^ 31 then some (a + b) else none

/-- What has been sent, and the count of it. -/
structure Out where
  sent : List Byte
  written : ℤ

/-- Bytes are sent and counted one by one. -/
def Out.puts (o : Out) (bytes : List Byte) : Option Out := do
  let written ← addInt o.written bytes.length
  return ⟨o.sent ++ bytes, written⟩

/-- `uart_putnch`. -/
def Out.uartPutnch (o : Out) (ch : Byte) (count : ℤ) : Option Out :=
  o.puts (List.replicate count.toNat ch)

/-- A routine has sent more, and returns its own count. -/
def Out.append (o o' : Out) : Option Out := do
  let written ← addInt o.written o'.written
  return ⟨o.sent ++ o'.sent, written⟩

/-! ## Reading the format -/

/-- `local_is_digit`. -/
def localIsDigit (c : Byte) : Bool := ascii '0' ≤ c ∧ c ≤ ascii '9'

/-- `local_parse_uint`, with the value so far. -/
def localParseUint (v : ℕ) : List Byte → Option (ℕ × List Byte)
  | [] => some (v, [])
  | c :: cs =>
    if localIsDigit c then
      let v' := v <<< 3 + v <<< 1 + (c - ascii '0').toNat
      if v' < 2 ^ 31 then localParseUint v' cs else none
    else some (v, c :: cs)

/-- The loop over the flags. -/
def parseFlags (leftAlign zeroPad : Bool) : List Byte → Bool × Bool × List Byte
  | [] => (leftAlign, zeroPad, [])
  | c :: cs =>
    if c = ascii '-' then parseFlags true zeroPad cs
    else if c = ascii '0' then parseFlags leftAlign true cs
    else (leftAlign, zeroPad, c :: cs)

/-- The width. -/
def parseWidth : List Byte → Option (ℕ × List Byte)
  | [] => some (0, [])
  | c :: cs => if localIsDigit c then localParseUint 0 (c :: cs) else some (0, c :: cs)

/-- The precision, which takes the zero flag back. -/
def parsePrecision (zeroPad : Bool) : List Byte → Option (ℤ × Bool × List Byte)
  | [] => some (-1, zeroPad, [])
  | c :: cs =>
    if c = ascii '.' then do
      let (precision, rest) ← parseWidth cs
      return (precision, false, rest)
    else some (-1, zeroPad, c :: cs)

/-! ## Numbers -/

/-- The digits of `digits_lo` and `digits_hi`. -/
def hexDigits (uppercase : Bool) : List Byte :=
  if uppercase then text "0123456789ABCDEF" else text "0123456789abcdef"

/-- The loop of `u32_to_hex_str` over the shifts. -/
def hexLoop (digits : List Byte) (value : BitVec 32) : Bool → List ℕ → List Byte
  | _, [] => []
  | started, i :: is =>
    let nibble := value >>> i &&& 0xF
    if nibble ≠ 0 ∨ started then
      digits.getD nibble.toNat 0 :: hexLoop digits value true is
    else hexLoop digits value started is

/-- `u32_to_hex_str`. -/
def u32ToHexStr (value : BitVec 32) (uppercase : Bool) : List Byte :=
  let out := hexLoop (hexDigits uppercase) value false [28, 24, 20, 16, 12, 8, 4, 0]
  -- nothing has been written unless a digit has been found
  if out = [] then [ascii '0'] else out

/-- The loop that subtracts a power of ten: the digit and what is left. -/
def subtractLoop (value p : ℕ) : ℕ × ℕ :=
  if p ≤ value ∧ 0 < p then
    let (digit, value) := subtractLoop (value - p) p
    (digit + 1, value)
  else (0, value)
  termination_by value

/-- The loop of `u32_to_dec_str` over the powers of ten. -/
def decLoop : Bool → ℕ → List ℕ → List Byte
  | _, _, [] => []
  | started, value, p :: ps =>
    let (digit, value) := subtractLoop value p
    if digit ≠ 0 ∨ started ∨ p = 1 then
      (ascii '0' + .ofNat 8 digit) :: decLoop true value ps
    else decLoop started value ps

/-- `u32_to_dec_str`. -/
def u32ToDecStr (value : BitVec 32) : List Byte :=
  decLoop false value.toNat
    [1000000000, 100000000, 10000000, 1000000, 100000, 10000, 1000, 100, 10, 1]

/-- `body` between the spaces of its field. -/
def Out.padded (o : Out) (leftAlign : Bool) (spaces : ℤ) (body : Out → Option Out) :
    Option Out := do
  let o ← if leftAlign then some o else o.uartPutnch (ascii ' ') spaces
  let o ← body o
  if leftAlign then o.uartPutnch (ascii ' ') spaces else some o

/-- The zeros that `format_core` puts in front of a number. -/
def zeroes (numLen prefixLen width precision : ℤ) (leftAlign zeroPad : Bool) : ℤ :=
  if precision > numLen then precision - numLen
  else if precision < 0 ∧ zeroPad ∧ ¬ leftAlign ∧ width > prefixLen + numLen then
    width - (prefixLen + numLen)
  else 0

/-- `format_core`. -/
def formatCore (num : List Byte) (width precision : ℤ) (leftAlign zeroPad : Bool)
    (pre : List Byte) : Option Out := do
  let zeroes := zeroes num.length pre.length width precision leftAlign zeroPad
  let bodyLen ← addInt (← addInt pre.length zeroes) num.length
  let spaces := if width > bodyLen then width - bodyLen else 0
  Out.padded ⟨[], 0⟩ leftAlign spaces fun o => do
    let o ← o.puts pre
    let o ← o.uartPutnch (ascii '0') zeroes
    o.puts num

/-- `format_unsigned_u32`. -/
def formatUnsignedU32 (value : BitVec 32) (base : ℕ) (uppercase : Bool) (width precision : ℤ)
    (leftAlign zeroPad : Bool) (pre : List Byte) : Option Out :=
  let num :=
    if precision = 0 ∧ value = 0 then []
    else if base = 16 then u32ToHexStr value uppercase else u32ToDecStr value
  formatCore num width precision leftAlign zeroPad pre

/-! ## Conversions -/

/-- `va_arg` of a word. -/
def vaWord : List Arg → Option (BitVec 32 × List Arg)
  | .word v :: args => some (v, args)
  | _ => none

/-- `va_arg` of a string. -/
def vaStr : List Arg → Option (Option CArray × List Arg)
  | .str s :: args => some (s, args)
  | _ => none

/-- `local_strlen`, and the bytes in front of the terminator. -/
def localStrlen : List Byte → Option (List Byte)
  | [] => none
  | c :: cs => if c = 0 then some [] else (localStrlen cs).map (c :: ·)

/-- The bytes that `%s` takes from its argument. -/
def stringOf : Option CArray → Option (List Byte)
  | none => some (text "(null)")
  | some s => localStrlen s.bytes

/-- Bytes between the spaces of a field, as `%c` and `%s` send them. -/
def sendField (o : Out) (bytes : List Byte) (width : ℤ) (leftAlign : Bool) : Option Out :=
  let spaces := if width > bytes.length then width - bytes.length else 0
  o.padded leftAlign spaces fun o => o.puts bytes

/-- What is printed for `spec`: what has been sent then, and the arguments that are left. -/
def convert (spec : Byte) (width precision : ℤ) (leftAlign zeroPad : Bool) (args : List Arg)
    (o : Out) : Option (Out × List Arg) :=
  if spec = ascii 'd' ∨ spec = ascii 'i' then do
    let (sval, args) ← vaWord args
    let neg : Bool := sval.toInt < 0
    let uval := if neg then -(sval + 1) + 1 else sval
    let out ← formatUnsignedU32 uval 10 false width precision leftAlign zeroPad
      (if neg then [ascii '-'] else [])
    return (← o.append out, args)
  else if spec = ascii 'u' ∨ spec = ascii 'x' ∨ spec = ascii 'X' then do
    let (uval, args) ← vaWord args
    let out ← formatUnsignedU32 uval (if spec = ascii 'u' then 10 else 16)
      (spec = ascii 'X') width precision leftAlign zeroPad []
    return (← o.append out, args)
  else if spec = ascii 'p' then do
    let (p, args) ← vaWord args
    let out ← formatUnsignedU32 p 16 false width precision leftAlign zeroPad (text "0x")
    return (← o.append out, args)
  else if spec = ascii 'c' then do
    let (c, args) ← vaWord args
    return (← sendField o [c.setWidth 8] width leftAlign, args)
  else if spec = ascii 's' then do
    let (s, args) ← vaStr args
    let bytes ← stringOf s
    let outLen := if precision ≥ 0 ∧ precision < bytes.length then precision.toNat else bytes.length
    return (← sendField o (bytes.take outLen) width leftAlign, args)
  else return (← o.puts [ascii '%', spec], args)

/-- The state of the loop of `printf`. -/
structure State where
  fmt : List Byte
  args : List Arg
  out : Out

/-- A conversion specification, behind its `%`. -/
def specification (s : State) : Option State := do
  let (leftAlign, zeroPad, fmt) := parseFlags false false s.fmt
  let (width, fmt) ← parseWidth fmt
  let (precision, zeroPad, fmt) ← parsePrecision zeroPad fmt
  -- `length_l` makes no difference, as a `long` is an `int`
  match fmt.dropWhile (· = ascii 'l') with
  | [] => some { s with fmt := [] }
  | spec :: fmt => do
    let (out, args) ← convert spec width precision leftAlign zeroPad s.args s.out
    return ⟨fmt, args, out⟩

/-- One round of the loop, with `c` as its first character. -/
def round (c : Byte) (s : State) : Option State :=
  if c ≠ ascii '%' then do
    let out ← s.out.puts [c]
    return { s with out }
  else if s.fmt.head? = some (ascii '%') then do
    let out ← s.out.puts [ascii '%']
    return { s with fmt := s.fmt.tail, out }
  else specification s

/-- The loop of `printf`; every round takes a character from the format, so that its length is fuel
enough. -/
def loop : ℕ → State → Option Out
  | _, ⟨[], _, out⟩ => some out
  | 0, _ => none
  | fuel + 1, ⟨c :: fmt, args, out⟩ => do
    let s ← round c ⟨fmt, args, out⟩
    loop fuel s

/-- `printf`: what it sends, and what it returns. -/
def printf (fmt : List Byte) (args : List Arg) : Option Out := loop fmt.length ⟨fmt, args, ⟨[], 0⟩⟩

end KwsSoc.Firmware.Printf
