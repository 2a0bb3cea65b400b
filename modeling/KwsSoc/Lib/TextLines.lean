import Mathlib.Data.List.DropRight

/-! # Lines of a text file

What a script sees of a file that it reads line by line: the lines, with any of the three line ends
taken off (`fileLines`), and each of them stripped of blanks (`strip`). **`fileLines_flatMap`**: a
text that was written as lines is read as these lines. `lfLines` are the lines of a reader that knows
one line end only. -/

namespace TextLines

/-- The lines of a text. -/
def fileLines : List Char → List (List Char)
  | [] => []
  | '\r' :: '\n' :: cs => [] :: fileLines cs
  | '\r' :: cs => [] :: fileLines cs
  | '\n' :: cs => [] :: fileLines cs
  | c :: cs =>
    match fileLines cs with
    | [] => [[c]]
    | line :: lines => (c :: line) :: lines

/-- A text without line ends. -/
def OneLine (cs : List Char) : Prop := '\r' ∉ cs ∧ '\n' ∉ cs

instance (cs : List Char) : Decidable (OneLine cs) := inferInstanceAs (Decidable (_ ∧ _))

theorem oneLine_append {xs ys : List Char} : OneLine (xs ++ ys) ↔ OneLine xs ∧ OneLine ys := by
  simp only [OneLine, List.mem_append, not_or]
  tauto

/-- The end of a line. -/
abbrev crlf : List Char := ['\r', '\n']

theorem fileLines_append {xs : List Char} (h : OneLine xs) (ys : List Char) :
    fileLines (xs ++ crlf ++ ys) = xs :: fileLines ys := by
  induction xs with
  | nil => rfl
  | cons c xs ih =>
    obtain ⟨hr, hn⟩ := h
    rw [List.mem_cons, not_or] at hr hn
    rw [List.cons_append, List.cons_append, fileLines, ih ⟨hr.2, hn.2⟩]
    · exact fun _ hc => absurd hc.symm hr.1
    · exact fun hc => hr.1 hc.symm
    · exact fun hc => hn.1 hc.symm

/-- **A text of lines is read as these lines.** -/
theorem fileLines_flatMap {lines : List (List Char)} (h : ∀ xs ∈ lines, OneLine xs) :
    fileLines (lines.flatMap (· ++ crlf)) = lines := by
  induction lines with
  | nil => rfl
  | cons xs lines ih =>
    rw [List.flatMap_cons, fileLines_append (h xs List.mem_cons_self),
      ih fun ys hys => h ys (List.mem_cons_of_mem xs hys)]

/-! ## One line end -/

/-- The lines between line feeds. -/
def lfLines : List Char → List (List Char)
  | [] => []
  | '\n' :: cs => [] :: lfLines cs
  | c :: cs =>
    match lfLines cs with
    | [] => [[c]]
    | line :: lines => (c :: line) :: lines

theorem lfLines_cons {c : Char} (hc : c ≠ '\n') (cs : List Char) :
    lfLines (c :: cs) = (c :: (lfLines cs).headD []) :: (lfLines cs).tail := by
  rw [lfLines]
  · cases lfLines cs <;> rfl
  · exact hc

/-- Without carriage returns both readers see the same lines. -/
theorem fileLines_eq_lfLines {cs : List Char} (h : '\r' ∉ cs) : fileLines cs = lfLines cs := by
  induction cs with
  | nil => rfl
  | cons c cs ih =>
    obtain ⟨hc, hcs⟩ := not_or.mp (List.mem_cons.not.mp h)
    rcases eq_or_ne c '\n' with rfl | hn
    · rw [fileLines, lfLines, ih hcs]
    · rw [lfLines_cons hn, ← ih hcs, fileLines]
      · cases fileLines cs <;> rfl
      · exact fun _ he => absurd he.symm hc
      · exact fun he => hc he.symm
      · exact hn

/-- A line has no line end in it. -/
theorem notMem_of_mem_lfLines {cs : List Char} : ∀ line ∈ lfLines cs, '\n' ∉ line := by
  induction cs with
  | nil => exact fun line h => absurd h List.not_mem_nil
  | cons c cs ih =>
    rcases eq_or_ne c '\n' with rfl | hn
    · rw [lfLines]
      intro line hline
      rcases List.mem_cons.mp hline with rfl | hline
      · exact List.not_mem_nil
      · exact ih line hline
    · rw [lfLines_cons hn]
      intro line hline
      rcases List.mem_cons.mp hline with rfl | hline
      · rw [List.mem_cons, not_or]
        refine ⟨hn.symm, ?_⟩
        cases hl : lfLines cs with
        | nil => exact List.not_mem_nil
        | cons l ls => exact ih l (by rw [hl]; exact List.mem_cons_self)
      · exact ih line (List.mem_of_mem_tail hline)

theorem lfLines_append {xs : List Char} (h : '\n' ∉ xs) (ys : List Char) :
    lfLines (xs ++ '\n' :: ys) = xs :: lfLines ys := by
  induction xs with
  | nil => rfl
  | cons c xs ih =>
    obtain ⟨hc, hxs⟩ := not_or.mp (List.mem_cons.not.mp h)
    rw [List.cons_append, lfLines_cons (Ne.symm hc), ih hxs]
    rfl

/-- **A text of lines is read as these lines**, with one line end too. -/
theorem lfLines_flatMap {lines : List (List Char)} (h : ∀ xs ∈ lines, '\n' ∉ xs) :
    lfLines (lines.flatMap (· ++ ['\n'])) = lines := by
  induction lines with
  | nil => rfl
  | cons xs lines ih =>
    rw [List.flatMap_cons, List.append_assoc, List.singleton_append,
      lfLines_append (h xs List.mem_cons_self), ih fun ys hys => h ys (List.mem_cons_of_mem xs hys)]

section Strip

variable (blank : Char → Bool)

/-- A text without the blanks at both ends. -/
def strip (cs : List Char) : List Char := (cs.dropWhile blank).rdropWhile blank

variable {blank}

/-- What begins and ends with something else than a blank is not stripped. -/
theorem strip_eq_self {c : Char} {cs : List Char} (hc : blank c = false)
    (hlast : blank ((c :: cs).getLast (List.cons_ne_nil c cs)) = false) :
    strip blank (c :: cs) = c :: cs := by
  rw [strip, List.dropWhile_cons_of_neg (by simp [hc]), List.rdropWhile_eq_self_iff]
  intro _
  simp [hlast]

/-- The first character stays, if it is not a blank. -/
theorem head?_strip {c : Char} (cs : List Char) (hc : blank c = false) :
    (strip blank (c :: cs)).head? = some c := by
  rw [strip, List.dropWhile_cons_of_neg (by simp [hc])]
  obtain ⟨tail, htail⟩ := List.rdropWhile_prefix blank (c :: cs)
  cases hs : List.rdropWhile blank (c :: cs) with
  | nil =>
    have hall := List.rdropWhile_eq_nil_iff.mp hs c List.mem_cons_self
    rw [hc] at hall
    cases hall
  | cons d ds =>
    rw [hs] at htail
    rw [(List.cons.inj htail).1]
    rfl

/-- Blanks in front are stripped, of whatever kind they are. -/
theorem strip_of_dropWhile {p : Char → Bool} (hp : ∀ c, p c = true → blank c = true)
    {cs : List Char} {d : Char} {ds : List Char} (hd : cs.dropWhile p = d :: ds) :
    strip blank cs = strip blank (d :: ds) := by
  have hdrop : cs.dropWhile blank = (d :: ds).dropWhile blank := by
    induction cs with
    | nil => cases hd
    | cons c cs ih =>
      cases hc : p c with
      | true =>
        rw [List.dropWhile_cons_of_pos hc] at hd
        rw [List.dropWhile_cons_of_pos (hp c hc)]
        exact ih hd
      | false =>
        rw [List.dropWhile_cons_of_neg (by simp [hc])] at hd
        rw [hd]
  rw [strip, strip, hdrop]

end Strip

/-- What a class of characters takes in front of another character. -/
theorem span_append {p : Char → Bool} {xs : List Char} (hxs : ∀ x ∈ xs, p x = true) {c : Char}
    (hc : p c = false) (ys : List Char) :
    (xs ++ c :: ys).takeWhile p = xs ∧ (xs ++ c :: ys).dropWhile p = c :: ys := by
  rw [List.takeWhile_append_of_pos hxs, List.dropWhile_append_of_pos hxs,
    List.takeWhile_cons_of_neg (by simp [hc]), List.dropWhile_cons_of_neg (by simp [hc])]
  exact ⟨List.append_nil xs, rfl⟩

end TextLines
