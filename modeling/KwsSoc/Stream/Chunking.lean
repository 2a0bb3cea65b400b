import KwsSoc.Stream.Hops

/-! # Cutting a stream into pushes

How a stream is cut into pushes makes no difference: `kwsStreamBPush_append` splits one push in two,
and `pushes_eq` joins any number. The samples of a hop may come in several copies, one behind the
other (`Buffer.store_append`); the hop itself sees only the buffer they fill. -/

namespace KwsSoc.Stream

variable (nn : Nnom) (w : Weights)

/-- What the loop does once `n` samples are in the buffer and `rest` are left. -/
def pushed (c : Session) (produced : Bool) (n : ℕ) (rest : List (Frame 1))
    (buf : Buffer (Frame 1) hop) : Option (Session × Bool) :=
  let engine := { c.engine with sampleBuf := buf, samplesPending := c.engine.samplesPending + n }
  if engine.samplesPending = hop then
    runHop nn w engine c.scratch buf c.scores >>= fun r =>
      pushLoop nn w ⟨{ r.engine with samplesPending := 0 }, r.scratch, r.scores, c.log ++ [r.frames]⟩
        true rest
  else pushLoop nn w { c with engine } produced rest

theorem pushLoop_nil (c : Session) (produced : Bool) :
    pushLoop nn w c produced [] = some (c, produced) := by
  rw [pushLoop, if_pos rfl]

/-- A full buffer is not written to. -/
theorem pushLoop_full {c : Session} (hfull : hop ≤ c.engine.samplesPending) (produced : Bool)
    {samples : List (Frame 1)} (hne : samples ≠ []) : pushLoop nn w c produced samples = none := by
  have hspace : hop - c.engine.samplesPending = 0 := Nat.sub_eq_zero_of_le hfull
  rw [pushLoop, if_neg hne]
  simp only
  rw [hspace, if_neg (Nat.not_lt_zero _), if_pos rfl]

/-- **One turn of the loop**: it takes as many samples as there are and as fit. -/
theorem pushLoop_step (c : Session) (produced : Bool) {samples : List (Frame 1)} {n : ℕ}
    (hpos : 0 < n) (hn : n = min samples.length (hop - c.engine.samplesPending)) :
    pushLoop nn w c produced samples =
      c.engine.sampleBuf.store c.engine.samplesPending (samples.take n) >>=
        pushed nn w c produced n (samples.drop n) := by
  have hne : samples ≠ [] := by
    rintro rfl
    rw [List.length_nil, Nat.zero_min] at hn
    omega
  have htake : (if samples.length < hop - c.engine.samplesPending then samples.length
      else hop - c.engine.samplesPending) = n := by
    rw [hn]
    split <;> omega
  rw [pushLoop, if_neg hne]
  simp only
  rw [htake, if_neg (by omega)]
  rfl

/-- Samples that do not complete a hop wait in the buffer for those behind them. -/
theorem pushLoop_append_short (c : Session) (produced : Bool) {a : List (Frame 1)}
    (b : List (Frame 1)) (hapos : 0 < a.length)
    (hshort : a.length < hop - c.engine.samplesPending) :
    pushLoop nn w c produced (a ++ b) =
      pushLoop nn w c produced a >>= fun r => pushLoop nn w r.1 r.2 b := by
  have hstep := pushLoop_step nn w c produced hapos (Nat.min_eq_left hshort.le).symm
  rw [List.take_length, List.drop_length] at hstep
  by_cases hb : b = []
  · rw [hb, List.append_nil]
    cases pushLoop nn w c produced a with
    | none => rfl
    | some r => exact (pushLoop_nil nn w r.1 r.2).symm
  have hbpos := List.length_pos_of_ne_nil hb
  have hmin : a.length + min b.length (hop - (c.engine.samplesPending + a.length)) =
      min (a ++ b).length (hop - c.engine.samplesPending) := by
    rw [List.length_append]
    omega
  generalize hm : min b.length (hop - (c.engine.samplesPending + a.length)) = m at hmin
  rw [hstep, pushLoop_step nn w c produced (by omega : 0 < a.length + m) hmin,
    List.take_length_add_append, List.drop_length_add_append, Buffer.store_append]
  cases c.engine.sampleBuf.store c.engine.samplesPending a with
  | none => rfl
  | some buf =>
    have hwait : c.engine.samplesPending + a.length ≠ hop := by omega
    show (buf.store _ (b.take m) >>= _) = (pushed nn w c produced a.length [] buf >>= _)
    unfold pushed
    simp only
    rw [if_neg hwait, pushLoop_nil, some_bind]
    rw [pushLoop_step nn w _ produced (by omega : 0 < m) hm.symm]
    refine congrArg _ (funext fun buf' => ?_)
    unfold pushed
    simp only [Nat.add_assoc]

/-- **The loop in two parts.** -/
theorem pushLoop_append (c : Session) (produced : Bool) (a b : List (Frame 1)) :
    pushLoop nn w c produced (a ++ b) =
      pushLoop nn w c produced a >>= fun r => pushLoop nn w r.1 r.2 b := by
  -- on the samples of the first part; a turn leaves fewer
  induction hlen : a.length using Nat.strongRecOn generalizing c produced a with
  | ind k ih =>
    by_cases ha : a = []
    · rw [ha, pushLoop_nil, List.nil_append]
      rfl
    have hapos := List.length_pos_of_ne_nil ha
    rcases Nat.lt_or_ge c.engine.samplesPending hop with hlt | hfull
    case neg.inr =>
      rw [pushLoop_full nn w hfull _ ha,
        pushLoop_full nn w hfull _ (List.append_ne_nil_of_left_ne_nil ha b)]
      rfl
    rcases Nat.lt_or_ge a.length (hop - c.engine.samplesPending) with hshort | hlong
    · exact pushLoop_append_short nn w c produced b hapos hshort
    · -- the turn takes only samples of `a`
      have hspace : 0 < hop - c.engine.samplesPending := by omega
      have hlong' : hop - c.engine.samplesPending ≤ (a ++ b).length := by
        rw [List.length_append]
        omega
      rw [pushLoop_step nn w c produced hspace (Nat.min_eq_right hlong).symm,
        pushLoop_step nn w c produced hspace (Nat.min_eq_right hlong').symm,
        List.take_append_of_le_length hlong, List.drop_append_of_le_length hlong]
      have hless : (a.drop (hop - c.engine.samplesPending)).length < k := by
        rw [List.length_drop]
        omega
      cases c.engine.sampleBuf.store c.engine.samplesPending
          (a.take (hop - c.engine.samplesPending)) with
      | none => rfl
      | some buf =>
        have hhop : c.engine.samplesPending + (hop - c.engine.samplesPending) = hop := by omega
        rw [some_bind, some_bind]
        unfold pushed
        simp only
        rw [if_pos hhop, if_pos hhop]
        cases runHop nn w _ c.scratch buf c.scores with
        | none => rfl
        | some r => exact ih _ hless _ true _ rfl

/-- Whether a hop was complete before is only remembered. -/
theorem pushLoop_produced (c : Session) (produced : Bool) (samples : List (Frame 1)) :
    pushLoop nn w c produced samples =
      (pushLoop nn w c false samples).map fun r => (r.1, produced || r.2) := by
  -- on the samples left, as the loop runs
  induction hlen : samples.length using Nat.strongRecOn generalizing c produced samples with
  | ind k ih =>
    by_cases hnil : samples = []
    · rw [hnil, pushLoop_nil, pushLoop_nil, Option.map_some, Bool.or_false]
    have hpos := List.length_pos_of_ne_nil hnil
    rcases Nat.lt_or_ge c.engine.samplesPending hop with hlt | hfull
    case neg.inr =>
      rw [pushLoop_full nn w hfull _ hnil, pushLoop_full nn w hfull _ hnil]
      rfl
    generalize hn : min samples.length (hop - c.engine.samplesPending) = n
    have hnpos : 0 < n := by omega
    have hless : (samples.drop n).length < k := by
      rw [List.length_drop]
      omega
    rw [pushLoop_step nn w c produced hnpos hn.symm, pushLoop_step nn w c false hnpos hn.symm]
    cases c.engine.sampleBuf.store c.engine.samplesPending (samples.take n) with
    | none => rfl
    | some buf =>
      rw [some_bind, some_bind]
      unfold pushed
      simp only
      split
      · cases runHop nn w _ c.scratch buf c.scores with
        | none => rfl
        | some r =>
          rw [some_bind, ih _ hless _ true _ rfl, Option.map_map]
          refine congrArg (fun f => Option.map f _) (funext fun r' => ?_)
          show (r'.1, true || r'.2) = (r'.1, produced || (true || r'.2))
          rw [Bool.true_or, Bool.or_true]
      · exact ih _ hless _ produced _ rfl

/-- **A push in two**: the session and the scores are the same, and a hop is complete in the whole
if one is in either part. -/
theorem kwsStreamBPush_append (c : Session) (a b : List (Frame 1)) :
    kwsStreamBPush nn w c (a ++ b) =
      kwsStreamBPush nn w c a >>= fun r =>
        (kwsStreamBPush nn w r.1 b).map fun r' => (r'.1, r.2 || r'.2) := by
  unfold kwsStreamBPush
  rw [pushLoop_append]
  refine congrArg _ (funext fun r => ?_)
  exact pushLoop_produced nn w r.1 r.2 b

/-- **Pushes joined.** -/
theorem pushes_eq (c : Session) (chunks : List (List (Frame 1))) :
    pushes nn w c chunks = (kwsStreamBPush nn w c chunks.flatten).map Prod.fst := by
  induction chunks generalizing c with
  | nil =>
    show some c = (pushLoop nn w c false []).map Prod.fst
    rw [pushLoop_nil]
    rfl
  | cons samples rest ih =>
    rw [List.flatten_cons, kwsStreamBPush_append]
    unfold pushes
    cases kwsStreamBPush nn w c samples with
    | none => rfl
    | some r =>
      rw [some_bind, some_bind, Option.map_map]
      exact ih r.1

/-- **Chunking invariance**: one push of `a ++ b` is a push of `a` and one of `b`, in the engine, in
the scores buffer and in the value returned, and however a stream is cut into pushes, they end as
one push of the whole. -/
theorem chunking_invariance (c : Session) :
    (∀ a b : List (Frame 1), kwsStreamBPush nn w c (a ++ b) =
      kwsStreamBPush nn w c a >>= fun r =>
        (kwsStreamBPush nn w r.1 b).map fun r' => (r'.1, r.2 || r'.2)) ∧
    ∀ chunks : List (List (Frame 1)),
      pushes nn w c chunks = (kwsStreamBPush nn w c chunks.flatten).map Prod.fst :=
  ⟨kwsStreamBPush_append nn w c, pushes_eq nn w c⟩

end KwsSoc.Stream
