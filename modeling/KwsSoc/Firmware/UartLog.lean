import KwsSoc.Firmware.VoteWindows
import KwsSoc.Lib.TextLines
import Mathlib.Data.Nat.Digits.Defs

/-! # The UART log

The lines that `test/common/kws_bare_main.c` prints, and the script `kws_uart_validate.py` that
reads them back (`readFromLog`). The pattern of the script ends with the class index, and the
`DETECT` lines of the firmware go on with the count: **`readFromLog_printed_iff`**, the names read
are the names announced only where none is announced. -/

namespace KwsSoc.Firmware.UartLog

open TextLines

/-! ## The firmware -/

/-- `class_names`. -/
def classNames : List String :=
  ["down", "go", "left", "no", "off", "on", "right", "stop", "up", "yes", "unknown"]

/-- The name of class `c`. -/
def className (c : ℕ) : List Char := (classNames.getD c "").toList

/-- The digits that a loop over `v / 10` prints. -/
def decDigits (v : ℕ) : List Char := (Nat.digits 10 v).reverse.map Nat.digitChar

/-- `uart_putdec`. The negation wraps around at `INT_MIN`, and then no digit is printed. -/
def uartPutdec (v : BitVec 32) : List Char :=
  let sign := if v.toInt < 0 then ['-'] else []
  let v := if v.toInt < 0 then -v else v
  sign ++ if v = 0 then ['0'] else if v.toInt > 0 then decDigits v.toNat else []

/-- `KWS_MODEL_NAME`. -/
def ModelName : Type := { name : List Char // OneLine name }

/-- A build: the name of its model, and `USE_MCYCLE_CSR`. -/
structure Build where
  modelName : ModelName
  useMcycleCsr : Bool

/-- What a pass of the main loop prints: the bytes of an audio loss, the class and the count of a
detection, and the values of the statistics lines. -/
structure Printed where
  audioLoss : Option (BitVec 32)
  detect : Option (ℕ × BitVec 32)
  i2sIrqCount : BitVec 32
  cyclesCapture : BitVec 32
  cycles : BitVec 32
  iterBytes : BitVec 32
  stepBytes : BitVec 32
  bwNow : BitVec 32
  bytesAtNextInference : BitVec 32

/-- What is printed before the main loop. -/
def boot (b : Build) : List Char :=
  ("KWS bare-metal firmware (".toList ++ (b.modelName.1 ++ ", NNoM int8)".toList) ++ crlf) ++
    ("Model loaded".toList ++ crlf) ++ ("I2S started".toList ++ crlf)

/-- The line of an audio loss. -/
def printLoss (lost : BitVec 32) : List Char :=
  "AUDIO_LOSS bytes=".toList ++ uartPutdec lost ++ crlf

/-- The line that announces a class. -/
def detectLine (voteWinner : ℕ) (votedClips : BitVec 32) : List Char :=
  "DETECT:".toList ++ (className voteWinner ++ ", ".toList ++ uartPutdec (.ofNat 32 voteWinner) ++
    " (n=".toList ++ uartPutdec votedClips ++ ")".toList)

/-- The lines of the cycle counters. -/
def printCycles (p : Printed) : List Char :=
  ("CYCLES_CAPTURE:".toList ++ uartPutdec p.cyclesCapture ++ crlf) ++
    ("CYCLES_INFER:".toList ++ uartPutdec p.cycles ++ crlf) ++
    ("CYCLES_TOTAL:".toList ++ uartPutdec (p.cyclesCapture + p.cycles) ++ crlf) ++
    ("CYCLES:".toList ++ uartPutdec p.cycles ++ crlf)

/-- The line of the step. -/
def printStep (p : Printed) : List Char :=
  "ITER_BYTES:".toList ++ (uartPutdec p.iterBytes ++ " STEP:".toList ++ uartPutdec p.stepBytes ++
    " BW:".toList ++ uartPutdec p.bwNow ++ " BAN:".toList ++ uartPutdec p.bytesAtNextInference) ++
    crlf

/-- What a pass sends to the UART. -/
def Printed.text (b : Build) (p : Printed) : List Char :=
  p.audioLoss.elim [] printLoss ++
    match p.detect with
    | none => []
    | some (voteWinner, votedClips) =>
      ("IRQS:".toList ++ uartPutdec p.i2sIrqCount ++ crlf) ++
        (detectLine voteWinner votedClips ++ crlf) ++
        (if b.useMcycleCsr then printCycles p else []) ++ printStep p

/-- What a run sends to the UART. -/
def uartOutput (b : Build) (ps : List Printed) : List Char := boot b ++ ps.flatMap (·.text b)

/-- What `n` passes of a run print, with any values in the other lines. -/
def printed (ms : ℕ+) (x : ℕ → Vote.Pass) (stats : ℕ → Printed) (n : ℕ) : List Printed :=
  (List.range n).map fun k =>
    { stats k with
      detect := ((Vote.outcome ms x k).bind Vote.Outcome.detect).map fun d => (d.1, .ofInt 32 d.2) }

/-- The names that the passes announce. -/
def announced (ps : List Printed) : List (List Char) :=
  ps.filterMap fun p => p.detect.map fun d => className d.1

/-! ## The script -/

/-- The characters that `\w` stands for, of those that the firmware prints. -/
def isWord (c : Char) : Bool := c.isAlphanum || c == '_'

/-- The characters that `\s` stands for and that `strip` takes off. -/
def isSpace (c : Char) : Bool :=
  c == ' ' || 9 ≤ c.toNat && c.toNat ≤ 13 || 28 ≤ c.toNat && c.toNat ≤ 31

/-- `DETECT_RE`, with its first group. -/
def detectRe (line : List Char) : Option (List Char) := do
  let afterColon ← "DETECT:".toList.isPrefixOf? line
  let name := afterColon.takeWhile isWord
  let afterComma ← [','].isPrefixOf? (afterColon.dropWhile isWord)
  let afterBlanks := afterComma.dropWhile isSpace
  let digits := afterBlanks.takeWhile Char.isDigit
  let tail := afterBlanks.dropWhile Char.isDigit
  if name ≠ [] ∧ digits ≠ [] ∧ tail.all isSpace then some name else none

/-- `read_from_log`. -/
def readFromLog (text : List Char) : List (List Char) :=
  (fileLines text).filterMap fun line => detectRe (strip isSpace line)

/-! ## What the script reads -/

/-- A line of the language of `DETECT_RE`, with its first group. -/
inductive DetectLine : List Char → List Char → Prop
  | mk {name blanks digits blanks' : List Char}
      (hname : name ≠ []) (hword : ∀ c ∈ name, isWord c = true)
      (hblanks : ∀ c ∈ blanks, isSpace c = true)
      (hdigits : digits ≠ []) (hdigit : ∀ c ∈ digits, c.isDigit = true)
      (hblanks' : ∀ c ∈ blanks', isSpace c = true) :
      DetectLine ("DETECT:".toList ++ (name ++ (',' :: (blanks ++ (digits ++ blanks'))))) name

theorem isDigit_of_isSpace {c : Char} (h : isSpace c = true) : c.isDigit = false := by
  rw [Bool.eq_false_iff]
  intro hd
  simp only [isSpace, Bool.or_eq_true, Bool.and_eq_true, beq_iff_eq, decide_eq_true_eq] at h
  simp only [Char.isDigit, Bool.and_eq_true, decide_eq_true_eq] at hd
  have h₁ : 48 ≤ c.toNat := hd.1
  rcases h with (rfl | h) | h
  · exact absurd h₁ (by decide)
  · omega
  · omega

theorem DetectLine.detectRe {line name : List Char} (h : DetectLine line name) :
    detectRe line = some name := by
  obtain ⟨hname, hword, hblanks, hdigits, hdigit, hblanks'⟩ := h
  rename_i blanks digits blanks'
  obtain ⟨hname₁, hname₂⟩ :=
    span_append hword (by decide : isWord ',' = false) (blanks ++ (digits ++ blanks'))
  -- the digits end where the blanks begin, or with the line
  have hspan : (digits ++ blanks').takeWhile Char.isDigit = digits ∧
      (digits ++ blanks').dropWhile Char.isDigit = blanks' := by
    cases blanks' with
    | nil => simpa using hdigit
    | cons b bs =>
      exact span_append hdigit (isDigit_of_isSpace (hblanks' b List.mem_cons_self)) bs
  have hblank : (blanks ++ (digits ++ blanks')).dropWhile isSpace = digits ++ blanks' := by
    obtain ⟨d, ds, rfl⟩ := List.exists_cons_of_ne_nil hdigits
    refine (span_append hblanks ?_ (ds ++ blanks')).2
    rw [Bool.eq_false_iff]
    intro hspace
    have := isDigit_of_isSpace hspace
    rw [hdigit d List.mem_cons_self] at this
    cases this
  have hcomma : [','].isPrefixOf? (',' :: (blanks ++ (digits ++ blanks'))) =
      some (blanks ++ (digits ++ blanks')) := List.isPrefixOf?_eq_some_iff_append_eq.mpr rfl
  rw [UartLog.detectRe, List.isPrefixOf?_eq_some_iff_append_eq.mpr rfl]
  simp only [Option.bind_eq_bind, Option.bind_some, hname₁, hname₂, hcomma, hblank, hspan]
  exact if_pos ⟨hname, hdigits, List.all_eq_true.mpr hblanks'⟩

/-- **What `DETECT_RE` matches.** -/
theorem detectRe_eq_some_iff {line name : List Char} :
    detectRe line = some name ↔ DetectLine line name := by
  refine ⟨fun h => ?_, DetectLine.detectRe⟩
  obtain ⟨afterColon, hcolon, h⟩ := Option.bind_eq_some_iff.mp h
  obtain ⟨afterComma, hcomma, h⟩ := Option.bind_eq_some_iff.mp h
  obtain ⟨⟨hname, hdigits, htail⟩, hsome⟩ := Option.ite_none_right_eq_some.mp h
  cases hsome
  rw [List.isPrefixOf?_eq_some_iff_append_eq] at hcolon hcomma
  have hline := DetectLine.mk hname (fun c => List.mem_takeWhile_imp)
    (fun c (hc : c ∈ afterComma.takeWhile isSpace) => List.mem_takeWhile_imp hc) hdigits
    (fun c => List.mem_takeWhile_imp) (fun c hc => List.all_eq_true.mp htail c hc)
  rw [List.takeWhile_append_dropWhile, List.takeWhile_append_dropWhile] at hline
  have hcomma : ',' :: afterComma = afterColon.dropWhile isWord := hcomma
  rwa [hcomma, List.takeWhile_append_dropWhile, hcolon] at hline

/-- Without the count, the line would be read. -/
theorem detectRe_withoutCount {c : ℕ} (hc : c < classNames.length) :
    detectRe ("DETECT:".toList ++ className c ++ ", ".toList ++ uartPutdec (.ofNat 32 c)) =
      some (className c) := by
  have hall : ∀ c < 11, detectRe ("DETECT:".toList ++ className c ++ ", ".toList ++
      uartPutdec (.ofNat 32 c)) = some (className c) := by decide +kernel
  exact hall c hc

/-- A line that ends with another character than a digit and a blank is not read. -/
theorem detectRe_append_eq_none (xs : List Char) {c : Char} (hdigit : c.isDigit = false)
    (hspace : isSpace c = false) : detectRe (xs ++ [c]) = none := by
  rw [Option.eq_none_iff_forall_ne_some]
  intro name hsome
  generalize hline : xs ++ [c] = line at hsome
  cases detectRe_eq_some_iff.mp hsome with
  | @mk _ blanks digits blanks' _ _ _ hdigits hdigit' hblanks' =>
    -- the last character is a digit or a blank
    have hne : digits ++ blanks' ≠ [] := List.append_ne_nil_of_left_ne_nil hdigits blanks'
    have hmem := List.getLast_mem hne
    have hlast := List.dropLast_append_getLast hne
    generalize (digits ++ blanks').getLast hne = d at hmem hlast
    have hsplit : xs ++ [c] = ("DETECT:".toList ++ (name ++ (',' :: (blanks ++
        (digits ++ blanks').dropLast)))) ++ [d] := by
      rw [hline]
      conv_lhs => rw [← hlast]
      simp only [List.append_assoc, List.cons_append]
    obtain rfl : c = d := (List.append_singleton_inj.mp hsplit).2
    rcases List.mem_append.mp hmem with h | h
    · rw [hdigit' c h] at hdigit
      cases hdigit
    · rw [hblanks' c h] at hspace
      cases hspace

/-- Nor is it when it has been stripped. -/
theorem detectRe_strip_append_eq_none {label rest : List Char} (d c : Char)
    (hhead : label.head? = some d) (hd : isSpace d = false)
    (hc : c.isDigit = false ∧ isSpace c = false) :
    detectRe (strip isSpace (label ++ (rest ++ [c]))) = none := by
  obtain ⟨label, rfl⟩ := List.head?_eq_some_iff.mp hhead
  rw [List.cons_append, strip_eq_self hd]
  · rw [← List.append_assoc]
    exact detectRe_append_eq_none (d :: (label ++ rest)) hc.1 hc.2
  · simpa using hc.2

/-- A line that begins with another letter is not read. -/
theorem detectRe_strip_cons_eq_none (cs : List Char) {c : Char} (hc : c ≠ 'D')
    (hspace : isSpace c = false) : detectRe (strip isSpace (c :: cs)) = none := by
  rw [Option.eq_none_iff_forall_ne_some]
  intro name hsome
  have hhead := head?_strip cs hspace
  generalize strip isSpace (c :: cs) = line at hsome hhead
  obtain ⟨-, -, -, -, -, -⟩ := detectRe_eq_some_iff.mp hsome
  exact hc (Option.some.inj hhead).symm

/-! ## The lines of a run -/

theorem oneLine_uartPutdec (v : BitVec 32) : OneLine (uartPutdec v) := by
  have hdigit : ∀ d < 10, Nat.digitChar d ≠ '\r' ∧ Nat.digitChar d ≠ '\n' := by decide
  have hdec (n : ℕ) : OneLine (decDigits n) := by
    constructor <;> rw [decDigits, List.mem_map] <;> rintro ⟨d, hmem, hd⟩
    · exact (hdigit d (Nat.digits_lt_base (by decide) (List.mem_reverse.mp hmem))).1 hd
    · exact (hdigit d (Nat.digits_lt_base (by decide) (List.mem_reverse.mp hmem))).2 hd
  have hsign (p : Prop) [Decidable p] : OneLine (if p then ['-'] else []) := by
    split <;> decide
  have hvalue (v : BitVec 32) :
      OneLine (if v = 0 then ['0'] else if v.toInt > 0 then decDigits v.toNat else []) := by
    split
    · decide
    · split
      · exact hdec _
      · decide
  exact oneLine_append.mpr ⟨hsign _, hvalue _⟩

theorem oneLine_className (c : ℕ) : OneLine (className c) := by
  have hall : ∀ s ∈ "" :: classNames, OneLine s.toList := by decide
  refine hall _ ?_
  rw [List.getD_eq_getElem?_getD]
  cases h : classNames[c]? with
  | none => exact List.mem_cons_self
  | some s => exact List.mem_cons_of_mem _ (List.mem_of_getElem? h)

/-- A text that is printed as lines, none of which is read. -/
def Unread (text : List Char) : Prop :=
  ∃ lines : List (List Char), text = lines.flatMap (· ++ crlf) ∧
    ∀ line ∈ lines, OneLine line ∧ detectRe (strip isSpace line) = none

theorem Unread.nil : Unread [] := ⟨[], rfl, fun _ h => absurd h List.not_mem_nil⟩

theorem Unread.append {xs ys : List Char} (hx : Unread xs) (hy : Unread ys) :
    Unread (xs ++ ys) := by
  obtain ⟨ls, rfl, hls⟩ := hx
  obtain ⟨ms, rfl, hms⟩ := hy
  refine ⟨ls ++ ms, (List.flatMap_append ..).symm, fun line hline => ?_⟩
  rcases List.mem_append.mp hline with h | h
  · exact hls line h
  · exact hms line h

theorem Unread.of_line {line : List Char} (hline : OneLine line)
    (h : detectRe (strip isSpace line) = none) : Unread (line ++ crlf) := by
  refine ⟨[line], (List.append_nil _).symm, fun l hl => ?_⟩
  rw [List.mem_singleton.mp hl]
  exact ⟨hline, h⟩

/-- A line whose label begins with another letter. -/
theorem Unread.line {label rest : List Char} (c : Char) (hhead : label.head? = some c)
    (hc : c ≠ 'D' ∧ isSpace c = false) (hlabel : OneLine label) (hrest : OneLine rest) :
    Unread (label ++ rest ++ crlf) := by
  refine .of_line (oneLine_append.mpr ⟨hlabel, hrest⟩) ?_
  obtain ⟨cs, rfl⟩ := List.head?_eq_some_iff.mp hhead
  exact detectRe_strip_cons_eq_none (cs ++ rest) hc.1 hc.2

theorem Unread.readFromLog {text : List Char} (h : Unread text) : readFromLog text = [] := by
  obtain ⟨lines, rfl, hlines⟩ := h
  rw [UartLog.readFromLog, fileLines_flatMap fun line hline => (hlines line hline).1,
    List.filterMap_eq_nil_iff]
  exact fun line hline => (hlines line hline).2

theorem unread_boot (b : Build) : Unread (boot b) := by
  have hname : OneLine (b.modelName.1 ++ ", NNoM int8)".toList) :=
    oneLine_append.mpr ⟨b.modelName.2, by decide⟩
  refine ((Unread.line 'K' rfl ?_ ?_ hname).append ?_).append ?_
  · decide
  · decide
  · exact .of_line (by decide) (by decide +kernel)
  · exact .of_line (by decide) (by decide +kernel)

theorem unread_printLoss (lost : BitVec 32) : Unread (printLoss lost) :=
  .line 'A' rfl (by decide) (by decide) (oneLine_uartPutdec lost)

/-- **The line of a detection is not read**, for it ends with a bracket. -/
theorem unread_detectLine (voteWinner : ℕ) (votedClips : BitVec 32) :
    Unread (detectLine voteWinner votedClips ++ crlf) := by
  have hname := oneLine_className voteWinner
  have hindex := oneLine_uartPutdec (.ofNat 32 voteWinner)
  have hcount := oneLine_uartPutdec votedClips
  have hcomma : OneLine ", ".toList := by decide
  have hbracket : OneLine " (n=".toList := by decide
  have hrest := oneLine_append.mpr ⟨oneLine_append.mpr ⟨oneLine_append.mpr
    ⟨oneLine_append.mpr ⟨hname, hcomma⟩, hindex⟩, hbracket⟩, hcount⟩
  refine .of_line (oneLine_append.mpr ⟨by decide, oneLine_append.mpr ⟨hrest, by decide⟩⟩) ?_
  exact detectRe_strip_append_eq_none 'D' ')' rfl (by decide) (by decide)

theorem unread_printCycles (p : Printed) : Unread (printCycles p) := by
  refine ((Unread.append ?_ ?_).append ?_).append ?_
  all_goals exact .line 'C' rfl (by decide) (by decide) (oneLine_uartPutdec _)

theorem unread_printStep (p : Printed) : Unread (printStep p) := by
  have hvalue {xs label : List Char} (hxs : OneLine xs) (hlabel : OneLine label) (v : BitVec 32) :
      OneLine (xs ++ label ++ uartPutdec v) :=
    oneLine_append.mpr ⟨oneLine_append.mpr ⟨hxs, hlabel⟩, oneLine_uartPutdec v⟩
  refine .line 'I' rfl (by decide) (by decide) ?_
  exact hvalue (hvalue (hvalue (oneLine_uartPutdec _) (by decide) _) (by decide) _) (by decide) _

/-- **A run prints lines, none of which is read.** -/
theorem unread_uartOutput (b : Build) (ps : List Printed) : Unread (uartOutput b ps) := by
  refine (unread_boot b).append ?_
  induction ps with
  | nil => exact .nil
  | cons p ps ih =>
    rw [List.flatMap_cons]
    refine .append ?_ ih
    rw [Printed.text]
    refine .append ?_ ?_
    · cases p.audioLoss with
      | none => exact .nil
      | some lost => exact unread_printLoss lost
    · cases p.detect with
      | none => exact .nil
      | some d =>
        refine ((Unread.append ?_ (unread_detectLine d.1 d.2)).append ?_).append
          (unread_printStep p)
        · exact .line 'I' rfl (by decide) (by decide) (oneLine_uartPutdec _)
        · split
          · exact unread_printCycles p
          · exact .nil

/-- **The names read are the names announced only where none is announced.** -/
theorem readFromLog_printed_iff (b : Build) (ps : List Printed) :
    readFromLog (uartOutput b ps) = announced ps ↔ ∀ p ∈ ps, p.detect = none := by
  rw [(unread_uartOutput b ps).readFromLog, eq_comm, announced, List.filterMap_eq_nil_iff]
  simp only [Option.map_eq_none_iff]

/-- **The name that a run announces is not read.** -/
theorem readFromLog_steady :
    ∃ (b : Build) (stats : ℕ → Printed),
      Vote.IsRun 200 (Vote.down Vote.steady) 11 ∧
      announced (printed 200 (Vote.down Vote.steady) stats 11) = ["down".toList] ∧
      readFromLog (uartOutput b (printed 200 (Vote.down Vote.steady) stats 11)) = [] := by
  refine ⟨⟨⟨"unknown".toList, by decide⟩, true⟩, fun _ => ⟨none, none, 0, 0, 0, 0, 0, 0, 0⟩,
    Vote.paced_steady.isRun 11, by decide +kernel, (unread_uartOutput _ _).readFromLog⟩

end KwsSoc.Firmware.UartLog
