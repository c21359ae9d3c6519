import AsymmetricCommittee.Theorems.BettingProcess

/-! The sequential test is its week-by-week reference rule: the first week of the looking window at which
    the wealths of the three betting processes cross decides, and nothing after it does. The rule reads
    the series only; the fold of `observe` is shown to track it, week by week. -/

namespace AsymmetricCommittee
namespace Sequential

/-! ### The reference rule -/

section Rule
variable {K : Type*} [Field K] [LinearOrder K]

/-- What the test reports about a series. -/
structure Decision where
  status : SequentialStatus
  terminalWeek : Option Nat
  terminalReason : Option TerminalReason
  deriving DecidableEq, Repr

def SequentialTest.decision (t : SequentialTest K) : Decision :=
  ⟨t.status, t.terminalWeek, t.terminalReason⟩

/-- Both primary processes stand above the threshold at week `w`. -/
def PassAt (series : List (K × K)) (w : Nat) : Prop :=
  eThreshold ≤ (spyState (series.take w)).wealth ∧ eThreshold ≤ (quantState (series.take w)).wealth

/-- The mirrored process stands above the threshold at week `w`. -/
def FailAt (series : List (K × K)) (w : Nat) : Prop :=
  eThreshold ≤ (mirrorState (series.take w)).wealth

instance (series : List (K × K)) (w : Nat) : Decidable (PassAt series w) :=
  inferInstanceAs (Decidable (_ ∧ _))

instance (series : List (K × K)) (w : Nat) : Decidable (FailAt series w) :=
  inferInstanceAs (Decidable (_ ≤ _))

/-- The first observed week of the window at which the PASS or the FAIL condition holds. -/
def firstCrossing (series : List (K × K)) : Option Nat :=
  (List.range' minWeek (maxWeek + 1 - minWeek)).find? fun w =>
    decide (w ≤ series.length) && (decide (PassAt series w) || decide (FailAt series w))

/-- The decision at a crossing of week `w`. -/
def decideAt (series : List (K × K)) (w : Nat) : Decision :=
  if PassAt series w ∧ FailAt series w then ⟨.inconclusive, some w, some .conflictingEvidence⟩
  else if PassAt series w then ⟨.pass, some w, some .bothEProcesses⟩
  else ⟨.fail, some w, some .mirroredEProcess⟩

/-- The reference rule, read off the whole series observed so far. -/
def referenceDecision (series : List (K × K)) : Decision :=
  match firstCrossing series with
  | some w => decideAt series w
  | none =>
    if series.length < maxWeek then ⟨.running, none, none⟩
    else ⟨.inconclusive, some maxWeek, some .noCrossing⟩

/-- A week was fed after the window had closed without a crossing. -/
def FedAfterClose (series : List (K × K)) : Prop :=
  firstCrossing series = none ∧ maxWeek < series.length

/-- The finite weeks of a series as `observe` takes them. -/
def finiteSeries (series : List (K × K)) : List (Extended K × Extended K) :=
  series.map fun x => (.finite x.1, .finite x.2)

/-! ### First crossings -/

/-- Week `w` of the window was observed and one of the two conditions holds there. -/
def Crosses (series : List (K × K)) (w : Nat) : Prop :=
  minWeek ≤ w ∧ w ≤ maxWeek ∧ w ≤ series.length ∧ (PassAt series w ∨ FailAt series w)

theorem firstCrossing_eq_some {series : List (K × K)} {w : Nat} :
    firstCrossing series = some w ↔ Crosses series w ∧ ∀ v < w, ¬Crosses series v := by
  rw [firstCrossing, List.find?_range'_eq_some]
  simp only [Bool.and_eq_true, Bool.or_eq_true, decide_eq_true_eq, List.mem_range'_1, Bool.not_eq_true',
    ← Bool.not_eq_true]
  constructor
  · rintro ⟨⟨hlen, hcross⟩, ⟨hmin, hmax⟩, hfirst⟩
    refine ⟨⟨hmin, by unfold minWeek maxWeek at *; omega, hlen, hcross⟩, fun v hv hc => ?_⟩
    exact hfirst v hc.1 hv ⟨hc.2.2.1, hc.2.2.2⟩
  · rintro ⟨⟨hmin, hmax, hlen, hcross⟩, hfirst⟩
    refine ⟨⟨hlen, hcross⟩, ⟨hmin, by unfold minWeek maxWeek at *; omega⟩, fun v hv hvw hc => ?_⟩
    exact hfirst v hvw ⟨hv, by omega, hc.1, hc.2⟩

theorem firstCrossing_eq_none {series : List (K × K)} :
    firstCrossing series = none ↔ ∀ w, ¬Crosses series w := by
  constructor
  · intro h w hc
    -- a crossing week has a first one before it
    classical
    have hex : ∃ v, Crosses series v := ⟨w, hc⟩
    have hfirst := firstCrossing_eq_some.mpr ⟨Nat.find_spec hex, fun v hv => Nat.find_min hex hv⟩
    rw [h] at hfirst
    cases hfirst
  · intro h
    cases hc : firstCrossing series with
    | none => rfl
    | some w => exact absurd (firstCrossing_eq_some.mp hc).1 (h w)

theorem passAt_append {series : List (K × K)} {w : Nat} (hw : w ≤ series.length) (x : K × K) :
    PassAt (series ++ [x]) w ↔ PassAt series w := by
  rw [PassAt, List.take_append_of_le_length hw, PassAt]

theorem failAt_append {series : List (K × K)} {w : Nat} (hw : w ≤ series.length) (x : K × K) :
    FailAt (series ++ [x]) w ↔ FailAt series w := by
  rw [FailAt, List.take_append_of_le_length hw, FailAt]

theorem decideAt_append {series : List (K × K)} {w : Nat} (hw : w ≤ series.length) (x : K × K) :
    decideAt (series ++ [x]) w = decideAt series w := by
  simp only [decideAt, passAt_append hw, failAt_append hw]

theorem crosses_append {series : List (K × K)} {w : Nat} (hw : w ≤ series.length) (x : K × K) :
    Crosses (series ++ [x]) w ↔ Crosses series w := by
  simp only [Crosses, passAt_append hw, failAt_append hw, List.length_append, List.length_singleton]
  constructor
  · rintro ⟨h1, h2, -, h3⟩
    exact ⟨h1, h2, hw, h3⟩
  · rintro ⟨h1, h2, -, h3⟩
    exact ⟨h1, h2, by omega, h3⟩

/-- A crossing is not moved by later weeks. -/
theorem firstCrossing_append_of_some {series : List (K × K)} {w : Nat} (h : firstCrossing series = some w)
    (x : K × K) : firstCrossing (series ++ [x]) = some w := by
  obtain ⟨hc, hfirst⟩ := firstCrossing_eq_some.mp h
  have hlen := hc.2.2.1
  refine firstCrossing_eq_some.mpr ⟨(crosses_append hlen x).mpr hc, fun v hv hcv => ?_⟩
  exact hfirst v hv ((crosses_append (by omega) x).mp hcv)

/-- Without a crossing so far, only the week just fed can be the first one. -/
theorem firstCrossing_append_of_none {series : List (K × K)} (h : firstCrossing series = none) (x : K × K) :
    (Crosses (series ++ [x]) (series.length + 1) →
      firstCrossing (series ++ [x]) = some (series.length + 1)) ∧
    (¬Crosses (series ++ [x]) (series.length + 1) → firstCrossing (series ++ [x]) = none) := by
  have hold : ∀ v < series.length + 1, ¬Crosses (series ++ [x]) v := fun v hv hc =>
    firstCrossing_eq_none.mp h v ((crosses_append (by omega) x).mp hc)
  refine ⟨fun hc => firstCrossing_eq_some.mpr ⟨hc, hold⟩, fun hc => firstCrossing_eq_none.mpr fun v hcv => ?_⟩
  have hlen := hcv.2.2.1
  rw [List.length_append, List.length_singleton] at hlen
  rcases Nat.lt_or_eq_of_le hlen with hlt | rfl
  · exact hold v hlt hcv
  · exact hc hcv

theorem passAt_length (series : List (K × K)) (x : K × K) :
    PassAt (series ++ [x]) (series.length + 1) ↔
      eThreshold ≤ ((spyState series).book (clip x.1)).wealth ∧
        eThreshold ≤ ((quantState series).book (clip x.2)).wealth := by
  rw [PassAt, List.take_of_length_le (by simp), spyState_append, quantState_append]

theorem failAt_length (series : List (K × K)) (x : K × K) :
    FailAt (series ++ [x]) (series.length + 1) ↔
      eThreshold ≤ ((mirrorState series).book (-clip x.2)).wealth := by
  rw [FailAt, List.take_of_length_le (by simp), mirrorState_append]

theorem referenceDecision_of_crossing {series : List (K × K)} {w : Nat} (h : firstCrossing series = some w) :
    referenceDecision series = decideAt series w := by
  rw [referenceDecision, h]

theorem decideAt_status_ne_running (series : List (K × K)) (w : Nat) :
    (decideAt series w).status ≠ .running ∧ (decideAt series w).terminalReason ≠ some .noCrossing := by
  unfold decideAt
  split
  · exact ⟨nofun, nofun⟩
  · split <;> exact ⟨nofun, nofun⟩

/-- The decision of one week on the wealths current at that week, no earlier week having decided. -/
def weekDecision (w : Nat) (passed failed : Prop) [Decidable passed] [Decidable failed] : Decision :=
  if minWeek ≤ w ∧ passed ∧ failed then ⟨.inconclusive, some w, some .conflictingEvidence⟩
  else if minWeek ≤ w ∧ passed then ⟨.pass, some w, some .bothEProcesses⟩
  else if minWeek ≤ w ∧ failed then ⟨.fail, some w, some .mirroredEProcess⟩
  else if w < maxWeek then ⟨.running, none, none⟩
  else ⟨.inconclusive, some w, some .noCrossing⟩

/-- The rule takes one more week as `observe` does: by that week's wealths alone. -/
theorem referenceDecision_append {series : List (K × K)} (h : firstCrossing series = none)
    (hlen : series.length < maxWeek) (x : K × K) :
    referenceDecision (series ++ [x]) = weekDecision (series.length + 1)
      (PassAt (series ++ [x]) (series.length + 1)) (FailAt (series ++ [x]) (series.length + 1)) := by
  obtain ⟨hcross, hnone⟩ := firstCrossing_append_of_none h x
  have hiff : Crosses (series ++ [x]) (series.length + 1) ↔ minWeek ≤ series.length + 1 ∧
      (PassAt (series ++ [x]) (series.length + 1) ∨ FailAt (series ++ [x]) (series.length + 1)) := by
    simp only [Crosses, List.length_append, List.length_singleton]
    constructor
    · rintro ⟨hmin, -, -, hc⟩
      exact ⟨hmin, hc⟩
    · rintro ⟨hmin, hc⟩
      exact ⟨hmin, hlen, le_rfl, hc⟩
  by_cases hc : Crosses (series ++ [x]) (series.length + 1)
  · rw [referenceDecision_of_crossing (hcross hc), decideAt, weekDecision]
    obtain ⟨hmin, hpf⟩ := hiff.mp hc
    by_cases hp : PassAt (series ++ [x]) (series.length + 1)
    · simp only [hmin, hp, true_and, if_true]
    · simp only [hmin, hp, hpf.resolve_left hp, true_and, false_and, if_true, if_false]
  · have hneither : ¬(minWeek ≤ series.length + 1 ∧ _) := fun hm => hc (hiff.mpr hm)
    have hp : ¬(minWeek ≤ series.length + 1 ∧ PassAt (series ++ [x]) (series.length + 1)) :=
      fun hm => hneither ⟨hm.1, Or.inl hm.2⟩
    have hf : ¬(minWeek ≤ series.length + 1 ∧ FailAt (series ++ [x]) (series.length + 1)) :=
      fun hm => hneither ⟨hm.1, Or.inr hm.2⟩
    have hpf : ¬(minWeek ≤ series.length + 1 ∧ PassAt (series ++ [x]) (series.length + 1) ∧
        FailAt (series ++ [x]) (series.length + 1)) := fun hm => hp ⟨hm.1, hm.2.1⟩
    rw [referenceDecision, hnone hc, weekDecision, if_neg hpf, if_neg hp, if_neg hf]
    simp only [List.length_append, List.length_singleton]
    by_cases hend : series.length + 1 < maxWeek
    · rw [if_pos hend, if_pos hend]
    · have hmax : series.length + 1 = maxWeek := by omega
      rw [if_neg hend, if_neg hend, hmax]

theorem weekDecision_noCrossing {w : Nat} {passed failed : Prop} [Decidable passed] [Decidable failed]
    (h : (weekDecision w passed failed).terminalReason = some .noCrossing) : maxWeek ≤ w := by
  unfold weekDecision at h
  by_contra hlt
  rw [if_pos (Nat.lt_of_not_le hlt)] at h
  split_ifs at h <;> cases h

/-- Once the window is closed a further week keeps it closed. -/
theorem FedAfterClose.append {series : List (K × K)} (h : firstCrossing series = none)
    (hlen : maxWeek ≤ series.length) (x : K × K) : FedAfterClose (series ++ [x]) := by
  refine ⟨(firstCrossing_append_of_none h x).2 fun hc => ?_, ?_⟩
  · have := hc.2.1
    omega
  · rw [List.length_append, List.length_singleton]
    omega

theorem not_fedAfterClose_of_crossing {series : List (K × K)} {w : Nat} (h : firstCrossing series = some w) :
    ¬FedAfterClose series := fun hc => by
  have hnone := hc.1
  rw [h] at hnone
  cases hnone

omit [Field K] [LinearOrder K] in
theorem finiteSeries_append (series : List (K × K)) (x : K × K) :
    finiteSeries (series ++ [x]) = finiteSeries series ++ [(.finite x.1, .finite x.2)] := by
  simp [finiteSeries]

/-! ### What the state of the test is after a series -/

/-- The state of the test after a series whose rule has not decided: it holds the three processes and the
    raw series. -/
structure Running (series : List (K × K)) (t : SequentialTest K) : Prop where
  week : t.week = series.length
  spy : t.spy = spyState series
  quant : t.quant = quantState series
  mirror : t.mirror = mirrorState series
  raw : t.quantExcess = series.map (·.2)

/-- What the state of the test is after a series: it reports the rule's decision, and while that is
    RUNNING it holds the processes of the series. -/
structure Tracks (series : List (K × K)) (t : SequentialTest K) : Prop where
  decision : t.decision = referenceDecision series
  running : t.status = .running → Running series t
  closedWeek : t.terminalReason = some .noCrossing → t.week = maxWeek

section
variable {t : SequentialTest K}

theorem start_tracks : Tracks ([] : List (K × K)) .start :=
  ⟨rfl, fun _ => ⟨rfl, rfl, rfl, rfl, rfl⟩, nofun⟩

theorem Tracks.terminal {series : List (K × K)} (ht : Tracks series t) {w : Nat}
    (h : firstCrossing series = some w) : t.status ≠ .running ∧ t.terminalReason ≠ some .noCrossing := by
  have hd := ht.decision
  rw [referenceDecision_of_crossing h] at hd
  have hne := decideAt_status_ne_running series w
  rw [← hd] at hne
  exact hne

theorem Tracks.closed {series : List (K × K)} (ht : Tracks series t) (h : firstCrossing series = none)
    (hlen : maxWeek ≤ series.length) : t.status ≠ .running ∧ t.terminalReason = some .noCrossing := by
  have hd := ht.decision
  rw [referenceDecision, h] at hd
  simp only [Nat.not_lt.mpr hlen, if_false] at hd
  have hstatus : t.status = .inconclusive := congrArg Decision.status hd
  exact ⟨by rw [hstatus]; nofun, congrArg Decision.terminalReason hd⟩

end

end Rule

/-! ### One step of the test -/

section Step
variable {K : Type*} [Field K] [LinearOrder K] [FloorRing K] {sqrt : K → K} {t t' : SequentialTest K}

theorem observe_terminal (h : t.status ≠ .running) (x y : Extended K) :
    t.observe sqrt x y = if t.terminalReason = some .noCrossing then .error (.closed t.week) else .ok t :=
  if_pos h

/-- A terminal state is absorbing: what follows either raises or leaves it as it is. -/
theorem observeAll_terminal (h : t.status ≠ .running) {series : List (Extended K × Extended K)}
    (hrun : t.observeAll sqrt series = .ok t') : t' = t := by
  induction series with
  | nil =>
    cases hrun
    rfl
  | cons x series ih =>
    simp only [SequentialTest.observeAll, List.foldlM_cons, observe_terminal h] at hrun ih
    split at hrun
    · cases hrun
    · exact ih hrun

theorem observeAll_append (series : List (Extended K × Extended K)) (x y : Extended K) :
    t.observeAll sqrt (series ++ [(x, y)]) = (t.observeAll sqrt series).bind fun t => t.observe sqrt x y := by
  simp only [SequentialTest.observeAll, List.foldlM_append, List.foldlM_cons, List.foldlM_nil]
  cases List.foldlM (fun test x => SequentialTest.observe sqrt test x.1 x.2) t series with
  | error e => rfl
  | ok s => exact bind_pure (SequentialTest.observe sqrt s x y)

/-- The state after a running week, before a decision is taken on it. -/
def SequentialTest.booked (t : SequentialTest K) (x : K × K) (d : Decision)
    (diagnostic : Option (TostResult K)) : SequentialTest K :=
  ⟨t.week + 1, t.spy.book (clip x.1), t.quant.book (clip x.2), t.mirror.book (-clip x.2),
    t.quantExcess ++ [x.2], d.status, d.terminalWeek, d.terminalReason, diagnostic⟩

/-! ### The diagnostic -/

/-- Two states that differ at most in the stored diagnostic. -/
def SameButDiagnostic (t t' : SequentialTest K) : Prop := t' = { t with tostResult := t'.tostResult }

/-- Whether the diagnostic can be computed does not depend on its values. -/
theorem tost_congr (sqrt sqrt' : K → K) (x : List K) (margin : K) :
    (tost sqrt x margin).map (fun _ => ()) = (tost sqrt' x margin).map (fun _ => ()) := by
  unfold tost
  cases hcv : kvBartlettCv95 ((hacLag x.length : K) / x.length) with
  | error e => simp only [hcv, bind, Except.bind, Except.map]
  | ok cv =>
    cases hl : bartlettLrv x (hacLag x.length) with
    | error e => simp only [hcv, hl, bind, Except.bind, Except.map]
    | ok lrv => simp only [hcv, hl, bind, Except.bind, Except.map, pure, Except.pure]

variable [IsStrictOrderedRing K]

/-- What a running week does, once and for all: it books the three bets, decides on the wealths current
    at that week, and computes the diagnostic when the window is exhausted. -/
theorem observe_running (h : t.status = .running) (x : K × K) :
    t.observe sqrt (.finite x.1) (.finite x.2) =
      let d := weekDecision (t.week + 1)
        (eThreshold ≤ (t.spy.book (clip x.1)).wealth ∧ eThreshold ≤ (t.quant.book (clip x.2)).wealth)
        (eThreshold ≤ (t.mirror.book (-clip x.2)).wealth)
      if d.terminalReason = some .noCrossing then
        (tost sqrt (t.quantExcess ++ [x.2]) tostMargin).map fun r => t.booked x d (some r)
      else .ok (t.booked x d none) := by
  unfold SequentialTest.observe
  rw [if_neg (not_not_intro h)]
  simp only [clippedY_finite, finiteExcess, bet_clip, bet_neg_clip, bind, Except.bind, pure, Except.pure, ge_iff_le]
  unfold weekDecision
  split
  · rfl
  · split
    · rfl
    · split
      · rfl
      · split
        · rfl
        · cases tost sqrt (t.quantExcess ++ [x.2]) tostMargin <;> rfl

/-- In a window that is not exhausted a week is booked; at its end the diagnostic does not raise. -/
theorem observe_running_ok (sqrt : K → K) (h : t.status = .running) (hraw : t.quantExcess.length = t.week)
    (hweek : t.week < maxWeek) (x : K × K) :
    ∃ diagnostic, t.observe sqrt (.finite x.1) (.finite x.2) = .ok (t.booked x (weekDecision (t.week + 1)
      (eThreshold ≤ (t.spy.book (clip x.1)).wealth ∧ eThreshold ≤ (t.quant.book (clip x.2)).wealth)
      (eThreshold ≤ (t.mirror.book (-clip x.2)).wealth)) diagnostic) := by
  rw [observe_running h]
  simp only
  split
  · rename_i hclosed
    -- the 104th week: the window is exhausted
    have hmax := weekDecision_noCrossing hclosed
    have hlen : (t.quantExcess ++ [x.2]).length = maxWeek := by
      rw [List.length_append, List.length_singleton, hraw]
      omega
    obtain ⟨r, hr⟩ := tost_maxWeek sqrt hlen tostMargin
    rw [hr]
    exact ⟨_, rfl⟩
  · exact ⟨_, rfl⟩

omit [IsStrictOrderedRing K] in
/-- A running week with a non-finite excess is refused, whichever of the two it is. -/
theorem observe_nonFinite (h : t.status = .running) {x y : Extended K}
    (hxy : (∀ a, x ≠ .finite a) ∨ (∀ a, y ≠ .finite a)) : t.observe sqrt x y = .error .nonFiniteExcess := by
  unfold SequentialTest.observe
  rw [if_neg (not_not_intro h)]
  cases x with
  | finite a =>
    cases y with
    | finite b => exact (hxy.elim (fun hx => hx a rfl) fun hy => hy b rfl).elim
    | posInf => rfl
    | negInf => rfl
    | nan => rfl
  | posInf => rfl
  | negInf => rfl
  | nan => rfl

/-- The diagnostic never influences a decision: neither the stored one nor the way it is computed. -/
theorem observe_diagnostic (sqrt sqrt' : K → K) {t t' : SequentialTest K} (h : SameButDiagnostic t t')
    (x y : Extended K) : (t.observe sqrt x y).map (·.decision) = (t'.observe sqrt' x y).map (·.decision) := by
  rw [h]
  by_cases hs : t.status = .running
  · by_cases hxy : (∀ a, x ≠ .finite a) ∨ (∀ a, y ≠ .finite a)
    · rw [observe_nonFinite hs hxy, observe_nonFinite (by exact hs) hxy]
    · push Not at hxy
      obtain ⟨⟨a, rfl⟩, b, rfl⟩ := hxy
      rw [observe_running hs (a, b), observe_running (by exact hs) (a, b)]
      simp only
      split
      · have hc := tost_congr sqrt sqrt' (t.quantExcess ++ [b]) tostMargin
        cases h1 : tost sqrt (t.quantExcess ++ [b]) tostMargin <;>
          cases h2 : tost sqrt' (t.quantExcess ++ [b]) tostMargin <;> rw [h1, h2] at hc
        · cases hc
          rfl
        · cases hc
        · cases hc
        · rfl
      · rfl
  · rw [observe_terminal hs, observe_terminal (by exact hs)]
    simp only
    split <;> rfl

/-! ### The whole series -/

/-- A running week keeps the test on the rule. -/
theorem Tracks.observe_running (sqrt : K → K) {series : List (K × K)} (ht : Tracks series t) (h : firstCrossing series = none)
    (hlen : series.length < maxWeek) (x : K × K) :
    ∃ t', t.observe sqrt (.finite x.1) (.finite x.2) = .ok t' ∧ Tracks (series ++ [x]) t' := by
  have hrun : t.status = .running := by
    have hd := congrArg Decision.status ht.decision
    rwa [referenceDecision, h, if_pos hlen] at hd
  obtain ⟨hw, hs, hq, hm, hraw⟩ := ht.running hrun
  obtain ⟨diagnostic, hobs⟩ := observe_running_ok sqrt hrun
    (by rw [hraw, hw, List.length_map]) (hw ▸ hlen) x
  refine ⟨_, hobs, ?_, fun _ => ?_, fun hclosed => ?_⟩
  · rw [referenceDecision_append h hlen]
    simp only [SequentialTest.decision, SequentialTest.booked, hw, hs, hq, hm, passAt_length, failAt_length]
  · constructor
    · simp [SequentialTest.booked, hw]
    · simp [SequentialTest.booked, hs]
    · simp [SequentialTest.booked, hq]
    · simp [SequentialTest.booked, hm]
    · simp [SequentialTest.booked, hraw]
  · have hmax := weekDecision_noCrossing hclosed
    show t.week + 1 = maxWeek
    omega

/-- The fold of `observe` over a series: it raises iff a week came after the closed window, and otherwise
    its state tracks the rule. The induction is on the last week. -/
theorem observeAll_tracks (sqrt : K → K) (series : List (K × K)) :
    (FedAfterClose series → SequentialTest.start.observeAll sqrt (finiteSeries series) = .error (.closed maxWeek)) ∧
    (¬FedAfterClose series →
      ∃ t, SequentialTest.start.observeAll sqrt (finiteSeries series) = .ok t ∧ Tracks series t) := by
  induction series using List.reverseRecOn with
  | nil => exact ⟨fun h => absurd h.2 (Nat.not_lt_zero _), fun _ => ⟨.start, rfl, start_tracks⟩⟩
  | append_singleton series x ih =>
    rw [finiteSeries_append, observeAll_append]
    by_cases hfed : FedAfterClose series
    · rw [ih.1 hfed]
      exact ⟨fun _ => rfl, fun hn => absurd (FedAfterClose.append hfed.1 hfed.2.le x) hn⟩
    obtain ⟨t, hrun, ht⟩ := ih.2 hfed
    rw [hrun, Except.bind]
    cases hc : firstCrossing series with
    | some w =>
      -- decided at week `w`: the week is ignored, and the rule does not move
      obtain ⟨hstatus, hreason⟩ := ht.terminal hc
      have hc' := firstCrossing_append_of_some hc x
      refine ⟨fun h => absurd h (not_fedAfterClose_of_crossing hc'), fun _ => ⟨t, ?_, ?_⟩⟩
      · rw [observe_terminal hstatus, if_neg hreason]
      · refine ⟨?_, fun h => absurd h hstatus, ht.closedWeek⟩
        rw [ht.decision, referenceDecision_of_crossing hc, referenceDecision_of_crossing hc',
          decideAt_append (firstCrossing_eq_some.mp hc).1.2.2.1]
    | none =>
      rcases Nat.lt_or_ge series.length maxWeek with hlen | hlen
      · obtain ⟨t', hobs, ht'⟩ := ht.observe_running sqrt hc hlen x
        refine ⟨fun h => ?_, fun _ => ⟨t', hobs, ht'⟩⟩
        have := h.2
        rw [List.length_append, List.length_singleton] at this
        omega
      · -- the window closed at week 104 without a crossing
        obtain ⟨hstatus, hreason⟩ := ht.closed hc hlen
        refine ⟨fun _ => ?_, fun hn => absurd (FedAfterClose.append hc hlen x) hn⟩
        rw [observe_terminal hstatus, if_pos hreason, ht.closedWeek hreason]

/-- The three kinds of state a series can lead to: RUNNING inside the window, decided by a crossing, and
    closed without one. -/
theorem Tracks.kinds (sqrt : K → K) {series : List (K × K)} (ht : Tracks series t) :
    (t.status = .running ∧ t.terminalReason ≠ some .noCrossing ∧
      ∀ x : K × K, ∃ t', t.observe sqrt (.finite x.1) (.finite x.2) = .ok t') ∨
    (t.status ≠ .running ∧ t.terminalReason ≠ some .noCrossing) ∨
    (t.status ≠ .running ∧ t.terminalReason = some .noCrossing) := by
  cases hc : firstCrossing series with
  | some w => exact Or.inr (Or.inl (ht.terminal hc))
  | none =>
    rcases Nat.lt_or_ge series.length maxWeek with hlen | hlen
    · have hd := ht.decision
      rw [referenceDecision, hc] at hd
      simp only [hlen, if_true] at hd
      have hreason : t.terminalReason = none := congrArg Decision.terminalReason hd
      refine Or.inl ⟨congrArg Decision.status hd, by rw [hreason]; nofun, fun x => ?_⟩
      obtain ⟨t', hobs, -⟩ := ht.observe_running sqrt hc hlen x
      exact ⟨t', hobs⟩
    · exact Or.inr (Or.inr (ht.closed hc hlen))

/-- The sequential test refines its week-by-week reference rule. -/
theorem observeAll_refines_rule (sqrt : K → K) (series : List (K × K)) :
    (FedAfterClose series →
      SequentialTest.start.observeAll sqrt (finiteSeries series) = .error (.closed maxWeek)) ∧
    (¬FedAfterClose series → ∃ t, SequentialTest.start.observeAll sqrt (finiteSeries series) = .ok t ∧
      t.decision = referenceDecision series ∧
      (t.status ≠ .running → ∀ later t', t.observeAll sqrt later = .ok t' → t' = t) ∧
      (∀ x y, (∃ w, t.observe sqrt x y = .error (.closed w)) ↔ t.terminalReason = some .noCrossing) ∧
      (∀ x : K × K, t.terminalReason ≠ some .noCrossing →
        ∃ t', t.observe sqrt (.finite x.1) (.finite x.2) = .ok t')) ∧
    (∀ (sqrt' : K → K) t t' x y, SameButDiagnostic t t' →
      (t.observe sqrt x y).map (·.decision) = (t'.observe sqrt' x y).map (·.decision)) := by
  refine ⟨(observeAll_tracks sqrt series).1, fun hfed => ?_,
    fun sqrt' t t' x y h => observe_diagnostic sqrt sqrt' h x y⟩
  obtain ⟨t, hrun, ht⟩ := (observeAll_tracks sqrt series).2 hfed
  refine ⟨t, hrun, ht.decision, fun hs later t' hl => observeAll_terminal hs hl, fun x y => ?_, fun x hx => ?_⟩
  · rcases ht.kinds sqrt with ⟨hs, hreason, hok⟩ | ⟨hs, hreason⟩ | ⟨hs, hreason⟩
    · refine ⟨fun ⟨w, hw⟩ => ?_, fun h => absurd h hreason⟩
      by_cases hxy : (∀ a, x ≠ .finite a) ∨ (∀ a, y ≠ .finite a)
      · rw [observe_nonFinite hs hxy] at hw
        cases hw
      · push Not at hxy
        obtain ⟨⟨a, rfl⟩, b, rfl⟩ := hxy
        obtain ⟨t', ht'⟩ := hok (a, b)
        rw [ht'] at hw
        cases hw
    · rw [observe_terminal hs, if_neg hreason]
      exact ⟨nofun, fun h => absurd h hreason⟩
    · rw [observe_terminal hs, if_pos hreason]
      exact ⟨fun _ => hreason, fun _ => ⟨t.week, rfl⟩⟩
  · rcases ht.kinds sqrt with ⟨-, -, hok⟩ | ⟨hs, hreason⟩ | ⟨-, hreason⟩
    · exact hok x
    · rw [observe_terminal hs, if_neg hreason]
      exact ⟨t, rfl⟩
    · exact absurd hreason hx

/-- A series that crosses from the first weeks on is decided at the first week of the window. -/
theorem observeAll_refines_rule_ahead :
    ∃ t, SequentialTest.start.observeAll (fun x : ℚ => x) (finiteSeries (List.replicate 30 (1 / 20, 1 / 20))) = .ok t ∧
      t.decision = ⟨.pass, some 26, some .bothEProcesses⟩ := by
  have hc : firstCrossing (List.replicate 30 ((1 / 20, 1 / 20) : ℚ × ℚ)) = some 26 := by decide +kernel
  have hd : referenceDecision (List.replicate 30 ((1 / 20, 1 / 20) : ℚ × ℚ)) =
      ⟨.pass, some 26, some .bothEProcesses⟩ := by decide +kernel
  obtain ⟨t, hrun, ht, -⟩ := (observeAll_refines_rule (fun x : ℚ => x) (List.replicate 30 (1 / 20, 1 / 20))).2.1
    (not_fedAfterClose_of_crossing hc)
  exact ⟨t, hrun, ht.trans hd⟩

end Step

end Sequential
end AsymmetricCommittee
