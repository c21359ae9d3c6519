import AsymmetricCommittee.Lib.Leads
import AsymmetricCommittee.Theorems.ReferencePolls

/-! Scoring references are borne out by what was observed. A capture reads under its lock which symbols lack a row, and writes
    rows for these alone; no two workers contradict each other, and a capture that comes after the waits leaves no symbol
    without a row. -/

namespace AsymmetricCommittee
namespace ReferenceCapture
open Reference ReferenceRules Store

variable {e : Service} {n k : Nat} {σ α β : Type} {s : σ} {w w' : World}

/-! ### Steps that write nothing -/

/-- Calls that leave the tables and the locks. -/
def Read : CaptureRequest → Prop
  | .recordExecutionReferences _ => False
  | .recordHaltSymbolSet _ => False
  | .recordHaltReferences _ => False
  | .tryLock _ _ => False
  | .unlock _ _ => False
  | _ => True

theorem effect_read {q : CaptureRequest} (hq : Read q) {r : (CaptureCall.request q).Reply} {v : World}
    (h : Effect n w (.request q) r v) : v = w := by
  cases q with
  | recordExecutionReferences rows => exact hq.elim
  | recordHaltSymbolSet s => exact hq.elim
  | recordHaltReferences rows => exact hq.elim
  | tryLock runId stage => exact hq.elim
  | unlock runId stage => exact hq.elim
  | loadRun runId => exact h.2
  | executionReferences runId => exact h.2
  | haltSymbolSet runId trigger => exact h.2
  | haltReferences runId trigger => exact h.2
  | _ => exact h

theorem allowed_read {q : CaptureRequest} (hq : Read q) : Allowed e n w (.request q) := by
  cases q with
  | recordExecutionReferences rows => exact hq.elim
  | recordHaltSymbolSet s => exact hq.elim
  | recordHaltReferences rows => exact hq.elim
  | _ => trivial

/-- What happened after a number of calls. -/
def World.since (w : World) (k : Nat) : List (Nat × Event captureDesk) := w.log.drop k

theorem since_subset (w : World) (k : Nat) : w.since k ⊆ w.log := List.drop_subset k w.log

theorem since_mono (h : w.log <+: w'.log) : w.since k ⊆ w'.since k := (h.drop k).subset

theorem Rely.since (h : Rely n w w') : w.since k ⊆ w'.since k := since_mono h.log

/-- From a world on the steps write nothing, and their result, or what they raise, is as stated; `k` calls were made before
    what the statement looks back to. -/
def Finds (e : Service) (n k : Nat) (m : Capture σ α) (Q : Except CaptureError α → World → Prop) (w : World) : Prop :=
  k ≤ w.log.length → m.Leads (contract e n) (Rely n) Q w

theorem course_rely (e : Service) (n : Nat) : Act.Course (contract e n) (Rely n) := ⟨fun _ _ => id, fun _ _ _ => Rely.trans⟩

/-- What holds of a result holds of what is raised. -/
theorem of_raised {error : CaptureError} {P : α → Prop} (a : α) (h : (.error error : Except CaptureError α) = .ok a) : P a := by
  cases h

section Finds
variable {m : Capture σ α} {f : α → Capture σ β} {Q Q' : Except CaptureError α → World → Prop}
  {R : Except CaptureError β → World → Prop}

theorem finds_pure {a : α} (h : ∀ w', Rely n w w' → Q (.ok a) w') : Finds e n k (pure a : Capture σ α) Q w :=
  fun _ => Act.leads_pure (course_rely e n) h

theorem finds_throw {error : CaptureError} (h : ∀ w', Rely n w w' → Q (.error error) w') :
    Finds e n k (throw error : Capture σ α) Q w := fun _ => Act.leads_throw (course_rely e n) h

theorem finds_orThrow {x : Except CaptureError α} (h : ∀ w', Rely n w w' → Q x w') :
    Finds e n k (orThrow x : Capture σ α) Q w := by
  cases x with
  | ok a => exact finds_pure h
  | error error => exact finds_throw h

theorem Finds.mono (h : Finds e n k m Q w) (hQ : ∀ x w', Rely n w w' → Q x w' → Q' x w') : Finds e n k m Q' w :=
  fun hk => (h hk).mono hQ

theorem Finds.bind (h : Finds e n k m Q w)
    (hok : ∀ a w', Inv e w' → Rely n w w' → Q (.ok a) w' → Finds e n k (f a) R w')
    (herror : ∀ error w', Rely n w w' → Q (.error error) w' → R (.error error) w') : Finds e n k (m >>= f) R w := fun hk =>
  (h hk).bind (course_rely e n) (fun a w' hi hr ha => hok a w' hi hr ha (hk.trans hr.log.length_le)) herror

theorem Finds.tryCatch {handle : CaptureError → Capture σ α} (h : Finds e n k m Q w)
    (hok : ∀ a w', Rely n w w' → Q (.ok a) w' → Q' (.ok a) w')
    (herror : ∀ error w', Inv e w' → Rely n w w' → Q (.error error) w' → Finds e n k (handle error) Q' w') :
    Finds e n k (tryCatch m handle) Q' w := fun hk =>
  (h hk).tryCatch (course_rely e n) hok fun error w' hi hr herr => herror error w' hi hr herr (hk.trans hr.log.length_le)

theorem finds_call {q : CaptureRequest} (hq : Read q) {Q : Except CaptureError q.Value → World → Prop}
    (h : ∀ x v w', Rely n w v → Effect n v (.request q) x v → Rely n v w' → Replied (w'.since k) n q x → Q x w') :
    Finds e n k (call q : Capture σ q.Value) Q w := by
  intro hk s v hr hi
  refine ⟨allowed_read hq, ?_⟩
  rintro reply w₂ ⟨v', heffect, rfl⟩ hi₂
  obtain rfl := effect_read hq heffect
  have hnoted := (keeps_noted (x := (n, ⟨.request q, reply⟩)) hi rfl).2 n
  have hsince : (n, ⟨.request q, reply⟩) ∈ (v'.log ++ [(n, (⟨.request q, reply⟩ : Event captureDesk))]).drop k := by
    rw [List.drop_append_of_le_length (hk.trans hr.log.length_le)]
    exact List.mem_append_right _ List.mem_cons_self
  have hdone : ∀ w₃, Rely n { v' with log := v'.log ++ [(n, ⟨.request q, reply⟩)] } w₃ → Rely n w w₃ ∧ Q reply w₃ := by
    intro w₃ hr₃
    exact ⟨hr.trans (hnoted.trans hr₃), h reply v' w₃ hr heffect (hnoted.trans hr₃) (hr₃.since hsince)⟩
  cases reply with
  | ok a => exact fun w₃ hr₃ _ => hdone w₃ hr₃
  | error error => exact fun w₃ hr₃ _ => hdone w₃ hr₃

theorem finds_replied (q : CaptureRequest) (hq : Read q) :
    Finds e n k (call q : Capture σ q.Value) (fun x w' => Replied (w'.since k) n q x) w :=
  finds_call hq fun _ _ _ _ _ _ h => h

/-- What is found of one item stays found while the next are visited. -/
theorem Finds.mapM {g : α → Capture σ β} {F : α → β → World → Prop} (hF : ∀ a b w w', Rely n w w' → F a b w → F a b w')
    (l : List α) (h : ∀ a ∈ l, ∀ w', Rely n w w' → Finds e n k (g a) (fun x w'' => ∀ b, x = .ok b → F a b w'') w') :
    Finds e n k (l.mapM g) (fun x w' => ∀ bs, x = .ok bs → List.Forall₂ (fun a b => F a b w') l bs) w := by
  induction l generalizing w with
  | nil =>
    rw [List.mapM_nil]
    refine finds_pure fun w' _ => ?_
    rintro _ ⟨⟩
    exact .nil
  | cons a l ih =>
    rw [List.mapM_cons]
    refine (h a List.mem_cons_self w (Rely.refl n w)).bind ?_ fun _ _ _ _ => of_raised
    intro b w₁ _ hr₁ hb
    refine (ih fun a' ha' w' hr => h a' (List.mem_cons_of_mem a ha') w' (hr₁.trans hr)).bind ?_ fun _ _ _ _ => of_raised
    intro bs w₂ _ hr₂ hbs
    refine finds_pure fun w₃ hr₃ => ?_
    rintro _ ⟨⟩
    exact .cons (hF a b w₁ w₃ (hr₂.trans hr₃) (hb b rfl)) ((hbs bs rfl).imp fun a b => hF a b w₂ w₃ hr₃)

end Finds

/-! ### Steps that may write -/

/-- What every step of a worker leaves: nothing is removed. -/
structure Grew (n : Nat) (w w' : World) : Prop where
  log : w.log <+: w'.log
  clock : w.clock ≤ w'.clock
  lost : w.locks.lost n → w'.locks.lost n
  references : w.tables.executionReferences <+: w'.tables.executionReferences

theorem Rely.grew (h : Rely n w w') : Grew n w w' := ⟨h.log, h.clock, h.lost, h.references⟩

theorem Grew.trans {w'' : World} (h : Grew n w w') (h' : Grew n w' w'') : Grew n w w'' :=
  ⟨h.log.trans h'.log, h.clock.trans h'.clock, fun hl => h'.lost (h.lost hl), h.references.trans h'.references⟩

/-- From a world on every call may be made, and what the steps come to is as stated. -/
def Ends (e : Service) (n k : Nat) (m : Capture σ α) (Q : Except CaptureError α → World → Prop) (w : World) : Prop :=
  k ≤ w.log.length → m.Leads (contract e n) (Grew n) Q w

theorem course_grew (e : Service) (n : Nat) : Act.Course (contract e n) (Grew n) :=
  ⟨fun _ _ => Rely.grew, fun _ _ _ => Grew.trans⟩

section Ends
variable {m : Capture σ α} {f : α → Capture σ β} {Q Q' : Except CaptureError α → World → Prop}
  {R : Except CaptureError β → World → Prop}

theorem Grew.since (h : Grew n w w') : w.since k ⊆ w'.since k := since_mono h.log

theorem Finds.ends (h : Finds e n k m Q w) : Ends e n k m Q w := fun hk => (h hk).weaken fun _ => Rely.grew

theorem Ends.mono (h : Ends e n k m Q w) (hQ : ∀ x w', Q x w' → Q' x w') : Ends e n k m Q' w :=
  fun hk => (h hk).mono fun x w' _ => hQ x w'

theorem Ends.bind (h : Ends e n k m Q w) (hok : ∀ a w', Inv e w' → Grew n w w' → Q (.ok a) w' → Ends e n k (f a) R w')
    (herror : ∀ error w', Grew n w w' → Q (.error error) w' → R (.error error) w') : Ends e n k (m >>= f) R w := fun hk =>
  (h hk).bind (course_grew e n) (fun a w' hi hg ha => hok a w' hi hg ha (hk.trans hg.log.length_le)) herror

theorem Finds.bind_ends (h : Finds e n k m Q w)
    (hok : ∀ a w', Inv e w' → Rely n w w' → Q (.ok a) w' → Ends e n k (f a) R w')
    (herror : ∀ error w', Rely n w w' → Q (.error error) w' → R (.error error) w') : Ends e n k (m >>= f) R w := fun hk =>
  (h hk).bind_weaken (course_grew e n) (fun _ _ => Rely.grew)
    (fun a w' hi hr ha => hok a w' hi hr ha (hk.trans hr.log.length_le)) herror

/-- References that may be written are there once the write has returned. -/
theorem ends_record {rows : List ExecutionReference} {Q : Except CaptureError Nat → World → Prop}
    (hallowed : ∀ w', Rely n w w' → Allowed e n w' (.request (.recordExecutionReferences rows)))
    (hok : ∀ k w', Grew n w w' → (∀ r ∈ rows, r ∈ w'.tables.executionReferences) → Q (.ok k) w')
    (herror : ∀ error w', Q (.error error) w') : Ends e n k (call (.recordExecutionReferences rows) : Capture σ Nat) Q w := by
  intro _ s v hr hi
  refine ⟨hallowed v hr, ?_⟩
  rintro reply w₂ ⟨v', heffect, rfl⟩ hi₂
  have hlog : v.log <+: v.log ++ [(n, ⟨.request (.recordExecutionReferences rows), reply⟩)] := List.prefix_append _ _
  have hraised {w₃ : World} {error : CaptureError} (hg : Grew n v w₃) : Grew n w w₃ ∧ Q (.error error) w₃ :=
    ⟨hr.grew.trans hg, herror error w₃⟩
  rcases heffect with ⟨rfl, rfl⟩ | ⟨hlost, heffect⟩
  · exact fun w₃ hr₃ _ => hraised ⟨hlog.trans hr₃.log, hr₃.clock, hr₃.lost, hr₃.references⟩
  · have hwritten : insertReferences executionReferenceKey executionReferenceColumns v.tables.executionReferences rows =
        .ok (v.tables.executionReferences ++ rows, rows.length) := by
      obtain ⟨hunique, hrows⟩ := (hallowed v hr).resolve_left hlost
      exact insertReferences_of_fresh executionReferenceColumns_same (fun r hr => (hrows r hr).1) hunique
    simp only [Writes, hwritten] at heffect
    obtain ⟨hreply, rfl⟩ := heffect
    have hafter {w₃ : World} (hr₃ : Rely n { v with
        tables := { v.tables with executionReferences := v.tables.executionReferences ++ rows }
        log := v.log ++ [(n, ⟨.request (.recordExecutionReferences rows), reply⟩)] } w₃) : Grew n v w₃ :=
      ⟨hlog.trans hr₃.log, hr₃.clock, hr₃.lost, (List.prefix_append _ _).trans hr₃.references⟩
    rcases hreply with rfl | rfl
    · intro w₃ hr₃ _
      exact ⟨hr.grew.trans (hafter hr₃), hok _ w₃ (hr.grew.trans (hafter hr₃)) fun r hmem =>
        hr₃.references.subset (List.mem_append_right _ hmem)⟩
    · exact fun w₃ hr₃ _ => hraised (hafter hr₃)

end Ends

/-! ### Symbols -/

theorem mem_canonicalSymbols {groups : List (List Ticker)} {t : Ticker} :
    t ∈ canonicalSymbols groups ↔ ∃ g ∈ groups, t ∈ g := by
  simp [canonicalSymbols]

theorem nodup_canonicalSymbols (groups : List (List Ticker)) : (canonicalSymbols groups).Nodup :=
  (List.perm_insertionSort _ _).nodup_iff.mpr (List.nodup_dedup _)

/-- The ticker that a reply gives a security. -/
def tickerIn (listed : List (SecurityId × Ticker)) (id : SecurityId) : Option Ticker :=
  (listed.find? fun s => s.1 = id).map Prod.snd

/-- The symbols are the instruments and the listed names of the book and of the universe, as they were read. -/
def Required (log : List (Nat × Event captureDesk)) (n : Nat) (run : RunRecord ℚ) (symbols : List Ticker) : Prop :=
  ∃ book members ids listed instruments, Replied log n (.loadBook run.runId) (.ok book) ∧
    Replied log n (.members run.asOf) (.ok members) ∧ Replied log n (.securities ids) (.ok listed) ∧
    Replied log n .referenceInstruments (.ok instruments) ∧
    (∀ id, id ∈ ids ↔ (∃ b ∈ book, ∃ p ∈ b.positions, p.securityId = id) ∨ ∃ m ∈ members, m.securityId = id) ∧
    ∀ t, t ∈ symbols ↔ t ∈ instruments ∨ ∃ id ∈ ids, tickerIn listed id = some t

theorem Required.mono {log log' : List (Nat × Event captureDesk)} {run : RunRecord ℚ} {symbols : List Ticker}
    (h : Required log n run symbols) (hlog : log ⊆ log') : Required log' n run symbols := by
  obtain ⟨book, members, ids, listed, instruments, hbook, hmembers, hlisted, hinstruments, h⟩ := h
  exact ⟨book, members, ids, listed, instruments, hbook.mono hlog, hmembers.mono hlog, hlisted.mono hlog, hinstruments.mono hlog, h⟩

/-- What is read tells the required symbols. -/
theorem finds_symbolGroups (run : RunRecord ℚ) (w : World) :
    Finds e n k (symbolGroups e run : Capture σ SymbolGroups)
      (fun x w' => ∀ groups, x = .ok groups →
        Required (w'.since k) n run (canonicalSymbols [groups.book, groups.members, groups.instruments])) w := by
  refine (finds_replied (.loadBook run.runId) trivial).bind ?_ fun _ _ _ _ => of_raised
  intro book w₁ _ hr₁ hbook
  refine (finds_replied (.members run.asOf) trivial).bind ?_ fun _ _ _ _ => of_raised
  intro members w₂ _ hr₂ hmembers
  refine (finds_replied (.securities _) trivial).bind ?_ fun _ _ _ _ => of_raised
  intro listed w₃ _ hr₃ hlisted
  refine (finds_replied .referenceInstruments trivial).bind ?_ fun _ _ _ _ => of_raised
  intro instruments w₄ _ hr₄ hinstruments
  refine finds_pure fun w₅ hr₅ => ?_
  rintro groups ⟨⟩
  have hr₃₅ := hr₄.trans hr₅
  have hr₂₅ := hr₃.trans hr₃₅
  refine ⟨book, members, _, listed, instruments, hbook.mono (hr₂.trans hr₂₅).since, hmembers.mono hr₂₅.since,
    hlisted.mono hr₃₅.since, hinstruments.mono hr₅.since, fun id => ?_, fun t => ?_⟩
  · cases book with
    | none => simp
    | some b => simp
  · rw [mem_canonicalSymbols]
    simp only [List.mem_cons, List.not_mem_nil, or_false, exists_eq_or_imp, exists_eq_left, List.mem_filterMap,
      List.mem_insertionSort, List.mem_dedup, List.mem_append, tickerIn]
    constructor
    · rintro (⟨id, hid, ht⟩ | ⟨id, hid, ht⟩ | ht)
      · exact Or.inr ⟨id, Or.inl hid, ht⟩
      · exact Or.inr ⟨id, Or.inr hid, ht⟩
      · exact Or.inl ht
    · rintro (ht | ⟨id, hid | hid, ht⟩)
      · exact Or.inr (Or.inr ht)
      · exact Or.inl ⟨id, hid, ht⟩
      · exact Or.inr (Or.inl ⟨id, hid, ht⟩)

theorem finds_required (run : RunRecord ℚ) (w : World) :
    Finds e n k (required e run : Capture σ (List Ticker))
      (fun x w' => ∀ symbols, x = .ok symbols → symbols.Nodup ∧ Required (w'.since k) n run symbols) w := by
  refine (finds_symbolGroups run w).bind ?_ fun _ _ _ _ => of_raised
  intro groups w₁ _ _ hrequired
  refine finds_pure fun w₂ hr₂ => ?_
  rintro symbols ⟨⟩
  exact ⟨nodup_canonicalSymbols _, (hrequired groups rfl).mono hr₂.since⟩

/-! ### What is missing -/

/-- The worker has the lock of the run's references, or has lost its session. -/
def Held (n : Nat) (runId : UUID) (w : World) : Prop := w.locks.Has n (runId, referencesStage)

/-- Under the lock none of the symbols has a row. -/
def Fresh (n : Nat) (runId : UUID) (missing : List Ticker) (w : World) : Prop :=
  w.locks.lost n ∨ w.locks.holder (runId, referencesStage) = some n ∧
    ∀ r ∈ w.tables.executionReferences, r.runId = runId → r.symbolRef ∉ missing

/-- The symbol has a row. -/
def HasRow (runId : UUID) (symbol : Ticker) (w : World) : Prop :=
  ∃ r ∈ w.tables.executionReferences, r.runId = runId ∧ r.symbolRef = symbol

theorem Held.rely {runId : UUID} (h : Held n runId w) (hr : Rely n w w') : Held n runId w' := by
  rcases h with hlost | hlock
  · exact Or.inl (hr.lost hlost)
  · exact (hr.held _ hlock).imp id And.left

theorem Fresh.rely {runId : UUID} {missing : List Ticker} (h : Fresh n runId missing w) (hr : Rely n w w') :
    Fresh n runId missing w' := by
  rcases h with hlost | ⟨hlock, hrows⟩
  · exact Or.inl (hr.lost hlost)
  · rcases hr.held _ hlock with hlost | ⟨hlock', hsame⟩
    · exact Or.inl hlost
    · exact Or.inr ⟨hlock', fun r hr hrun => hrows r ((hsame.references rfl r hrun).mp hr) hrun⟩

theorem HasRow.grew {runId : UUID} {symbol : Ticker} (h : HasRow runId symbol w) (hg : Grew n w w') : HasRow runId symbol w' := by
  obtain ⟨r, hr, h⟩ := h
  exact ⟨r, hg.references.subset hr, h⟩

/-- The symbols that are found missing lack a row while the lock is held, and the others have one. -/
theorem finds_missing {runId : UUID} (hheld : Held n runId w) {symbols : List Ticker} (hnodup : symbols.Nodup) :
    Finds e n k (missingReferences runId symbols : Capture σ (List Ticker))
      (fun x w' => ∀ missing, x = .ok missing → missing.Nodup ∧ Fresh n runId missing w' ∧
        ∀ t ∈ symbols, t ∉ missing → HasRow runId t w') w := by
  refine (finds_call (q := .executionReferences runId) (Q := fun x w' => ∀ rows, x = .ok rows → ∃ v, Rely n w v ∧
    Rely n v w' ∧ rows = Store.executionReferences v.tables runId) trivial ?_).bind ?_ fun _ _ _ _ => of_raised
  · rintro x v w' hv heffect hr - rows rfl
    rcases heffect.1 with h | h
    · cases h
    · exact ⟨v, hv, hr, Except.ok.inj h⟩
  · intro rows w₁ _ _ hrows
    obtain ⟨v, hv, hr₁, rfl⟩ := hrows rows rfl
    refine finds_pure fun w₂ hr₂ => ?_
    rintro missing ⟨⟩
    have hr := hr₁.trans hr₂
    refine ⟨hnodup.filter _, Fresh.rely (w := v) ?_ hr, fun t ht hmissing => ?_⟩
    · rcases hheld.rely hv with hlost | hlock
      · exact Or.inl hlost
      · refine Or.inr ⟨hlock, fun r hr hrun hmem => ?_⟩
        have := (List.mem_filter.mp hmem).2
        simp only [decide_eq_true_eq, List.mem_map, mem_executionReferences] at this
        exact this ⟨r, ⟨hr, hrun⟩, rfl⟩
    · have hhas : t ∈ (Store.executionReferences v.tables runId).map (·.symbolRef) := by
        by_contra hno
        exact hmissing (List.mem_filter.mpr ⟨ht, decide_eq_true hno⟩)
      obtain ⟨r, hr', rfl⟩ := List.mem_map.mp hhas
      obtain ⟨hmem, hrun⟩ := mem_executionReferences.mp hr'
      exact HasRow.grew ⟨r, hmem, hrun, rfl⟩ hr.grew

/-! ### The reference day -/

/-- A day that is found was told by the calendar; none is found only when it told none. -/
theorem finds_referenceDay (run : RunRecord ℚ) (now : AwareDatetime) (w : World) :
    Finds e n k (referenceDay e run now : Capture σ (Option (TradingSession × AwareDatetime)))
      (fun x w' => (∀ session refTime, x = .ok (some (session, refTime)) → DayTold e (w'.since k) n run now session refTime) ∧
        (x = .ok none → DayUntold e (w'.since k) n run now)) w := by
  refine Finds.tryCatch (Q := fun x w' => (∀ day, x = .ok day → ∃ told ∈ day, DayTold e (w'.since k) n run now told.1 told.2) ∧
      ∀ error, x = .error (.coverage error) → DayUntold e (w'.since k) n run now) ?_ ?_ ?_
  · refine (finds_replied (.tradingCalendar now) trivial).bind ?_ ?_
    · intro cal w₁ _ _ hcal
      split
      · next day hday =>
        refine finds_pure fun w₂ hr₂ => ⟨?_, fun _ herror => by cases herror⟩
        rintro _ ⟨⟩
        exact ⟨day, rfl, cal, hcal.mono hr₂.since, hday⟩
      · next error hday =>
        refine finds_throw fun w₂ hr₂ => ⟨of_raised, fun _ _ => ?_⟩
        exact ⟨.ok cal, hcal.mono hr₂.since, error, hday⟩
    · intro error w₁ _ hcal
      refine ⟨of_raised, ?_⟩
      rintro _ ⟨⟩
      exact ⟨_, hcal, trivial⟩
  · intro day w₁ _ h
    obtain ⟨told, rfl, htold⟩ := h.1 day rfl
    refine ⟨?_, fun hnone => by cases hnone⟩
    rintro session refTime ⟨⟩
    exact htold
  · intro error w₁ _ _ h
    split
    · next error =>
      refine finds_pure fun w₂ hr₂ => ⟨?_, fun _ => (h.2 error rfl).mono hr₂.since⟩
      rintro session refTime ⟨⟩
    · refine finds_throw fun w₂ _ => ⟨?_, ?_⟩
      · rintro session refTime ⟨⟩
      · rintro ⟨⟩

/-! ### Observations -/

/-- What the live rule resolves was quoted, and what it leaves has no price. -/
theorem finds_resolveLive (symbol : Ticker) (now : AwareDatetime) (w : World) :
    Finds e n k (resolveLive symbol now : Capture σ ReferenceObservation)
      (fun x w' => ∀ obs, x = .ok obs → obs.symbolRef = symbol ∧
        (obs.status = .resolved → Quoted (w'.since k) n symbol now obs.toObserved)) w := by
  have hprice : Finds e n k (referencePrice symbol now : Capture σ (Positive ℚ × ReferenceSource))
      (fun x w' => ∀ found, x = .ok found → Quoted (w'.since k) n symbol now (liveObservation symbol now found.1 found.2).toObserved) w := by
    refine (finds_replied (.iexQuote symbol) trivial).bind ?_ fun _ _ _ _ => of_raised
    intro quote w₁ _ _ hquote
    cases hmid : tightMid quote with
    | some mid =>
      refine finds_pure fun w₂ hr₂ => ?_
      rintro _ ⟨⟩
      refine ⟨quote, hquote.mono hr₂.since, ?_⟩
      rw [hmid]
    | none =>
      refine (finds_replied (.sipLastTrade symbol _) trivial).bind ?_ fun _ _ _ _ => of_raised
      intro trade w₂ _ hr₂ htrade
      split
      · next price hprice =>
        refine finds_pure fun w₃ hr₃ => ?_
        rintro _ ⟨⟩
        refine ⟨quote, hquote.mono (hr₂.trans hr₃).since, ?_⟩
        rw [hmid]
        exact ⟨trade, price, htrade.mono hr₃.since, hprice, rfl⟩
      · exact finds_throw fun _ _ => of_raised
  refine Finds.tryCatch (Q := fun x w' => ∀ obs, x = .ok obs → obs.symbolRef = symbol ∧
    Quoted (w'.since k) n symbol now obs.toObserved) (hprice.bind ?_ fun _ _ _ _ => of_raised) ?_ ?_
  · intro found w₁ _ _ hquoted
    refine finds_pure fun w₂ hr₂ => ?_
    rintro _ ⟨⟩
    exact ⟨rfl, (hquoted found rfl).mono hr₂.since⟩
  · intro obs w₁ _ h
    rintro _ ⟨⟩
    exact ⟨(h obs rfl).1, fun _ => (h obs rfl).2⟩
  · intro error w₁ _ _ _
    split
    · refine finds_pure fun w₂ _ => ?_
      rintro _ ⟨⟩
      exact ⟨rfl, nofun⟩
    · exact finds_throw fun _ _ => of_raised

/-- A row of the observation on the reference day. -/
def RowOn (e : Service) (log : List (Nat × Event captureDesk)) (n : Nat) (runId : UUID) (mode : RefMode)
    (session : TradingSession) (refTime now : AwareDatetime) (symbol : Ticker) (r : ExecutionReference) : Prop :=
  r.runId = runId ∧ r.symbolRef = symbol ∧ r.mode = mode ∧ r.availableAt = now ∧ r.refTime = some refTime ∧
    r.sessionDate = some session.sessionDate ∧ ModeEvidence e log n mode symbol session refTime now r.toObserved

theorem RowOn.mono {log log' : List (Nat × Event captureDesk)} {runId : UUID} {mode : RefMode} {session : TradingSession}
    {refTime now : AwareDatetime} {symbol : Ticker} {r : ExecutionReference} (hlog : log ⊆ log')
    (h : RowOn e log n runId mode session refTime now symbol r) : RowOn e log' n runId mode session refTime now symbol r :=
  ⟨h.1, h.2.1, h.2.2.1, h.2.2.2.1, h.2.2.2.2.1, h.2.2.2.2.2.1, h.2.2.2.2.2.2.mono hlog⟩

/-- A validated row is the row. -/
theorem executionReference_eq_ok {row : ExecutionReferenceRow} {r : ExecutionReference}
    (h : executionReference row = .ok r) : r.toExecutionReferenceRow = row := by
  unfold executionReference at h
  split at h
  · cases h
    rfl
  · cases h

theorem rowOn_of_observed {log : List (Nat × Event captureDesk)} {runId : UUID} {mode : RefMode} {session : TradingSession}
    {refTime now : AwareDatetime} {symbol : Ticker} {version : Version} {obs : ReferenceObservation} {r : ExecutionReference}
    (hrow : executionReference (observedRow runId mode session refTime now version obs) = .ok r)
    (hsymbol : obs.symbolRef = symbol) (hobs : ModeEvidence e log n mode symbol session refTime now obs.toObserved) :
    RowOn e log n runId mode session refTime now symbol r := by
  have hr := executionReference_eq_ok hrow
  unfold RowOn
  rw [hr]
  exact ⟨rfl, hsymbol, rfl, rfl, rfl, rfl, hobs⟩

/-- A row of a live capture is borne out, and past the grace there is one for each symbol. -/
theorem finds_liveRow {runId : UUID} {session : TradingSession} {refTime now : AwareDatetime} (symbol : Ticker) (w : World) :
    Finds e n k (liveRow e runId session refTime now symbol : Capture σ (Option ExecutionReference))
      (fun x w' => ∀ found, x = .ok found →
        (∀ r ∈ found, RowOn e (w'.since k) n runId .live session refTime now symbol r) ∧
        (refTime.instant + e.config.liveCaptureGrace < now.instant → found.isSome)) w := by
  have hrow (obs : ReferenceObservation) (w₁ : World) (hsymbol : obs.symbolRef = symbol)
      (hobs : ModeEvidence e (w₁.since k) n .live symbol session refTime now obs.toObserved) :
      Finds e n k (do
        let r ← orThrow (executionReference (observedRow runId .live session refTime now liveVersion obs))
        return some r : Capture σ (Option ExecutionReference))
      (fun x w' => ∀ found, x = .ok found →
        (∀ r ∈ found, RowOn e (w'.since k) n runId .live session refTime now symbol r) ∧
        (refTime.instant + e.config.liveCaptureGrace < now.instant → found.isSome)) w₁ := by
    refine (finds_orThrow (Q := fun x _ => x = executionReference (observedRow runId .live session refTime now liveVersion obs))
      fun _ _ => rfl).bind ?_ fun _ _ _ _ => of_raised
    intro r w₂ _ hr₂ hvalid
    refine finds_pure fun w₃ hr₃ => ?_
    rintro _ ⟨⟩
    refine ⟨?_, fun _ => rfl⟩
    rintro _ ⟨⟩
    exact (rowOn_of_observed hvalid.symm hsymbol hobs).mono (hr₂.trans hr₃).since
  unfold liveRow
  dsimp only
  split
  · next hexpired =>
    have hobs : ModeEvidence e (w.since k) n .live symbol session refTime now
        (unresolved symbol refTime .noReferencePrice).toObserved := Or.inr ⟨hexpired, rfl⟩
    exact hrow (unresolved symbol refTime .noReferencePrice) w rfl hobs
  · next hgrace =>
    refine (finds_resolveLive symbol now w).bind ?_ fun _ _ _ _ => of_raised
    intro obs w₁ _ _ hobs
    obtain ⟨hsymbol, hquoted⟩ := hobs obs rfl
    split
    · refine finds_pure fun w₂ _ => ?_
      rintro _ ⟨⟩
      exact ⟨fun r hr => (Option.not_mem_none r hr).elim, fun h => absurd h hgrace⟩
    · next hresolved =>
      have hstatus : obs.status = .resolved := by
        cases hstatus : obs.status with
        | resolved => rfl
        | unresolved => exact absurd hstatus hresolved
      have hobs : ModeEvidence e (w₁.since k) n .live symbol session refTime now obs.toObserved :=
        Or.inl ⟨not_lt.mp hgrace, hquoted hstatus⟩
      exact hrow obs w₁ hsymbol hobs

theorem decideGroups_symbolRef (symbol : Ticker) (at_ : AwareDatetime) (groups : List (List ReferenceRules.Verdict)) :
    (decideGroups symbol at_ groups).symbolRef = symbol := by
  induction groups with
  | nil => rfl
  | cons group groups ih =>
    unfold decideGroups
    split
    · rfl
    · split
      · exact ih
      · split
        · rfl
        · rfl

theorem resolveBacktest_symbolRef (symbol : Ticker) (trades : List SipTrade) (session : TradingSession) (refTime : AwareDatetime)
    (pmap : TradeConditions.ProviderCodeMap) : (resolveBacktest symbol trades session refTime pmap).symbolRef = symbol := by
  unfold resolveBacktest
  split
  · rfl
  · exact decideGroups_symbolRef symbol refTime _

/-- What a refusal that concerns every symbol rests on. -/
def Blocked (e : Service) (log : List (Nat × Event captureDesk)) (n : Nat) (session : TradingSession) (refTime : AwareDatetime)
    (reason : RefReason) : Prop :=
  (reason = .providerMappingUnvalidated ∧ anyValidated e.providerMap = false) ∨
  (reason = .sipEntitlement ∧
    ∃ other, Replied log n (.historicalTrades other session.openAt refTime) (.error .sipEntitlement))

/-- There is an observation for each symbol, borne out by the trades or by a refusal. -/
theorem finds_backtestObservations {session : TradingSession} {refTime : AwareDatetime} (now : AwareDatetime) (symbols : List Ticker)
    (blocked : Option RefReason) (w : World) (hblocked : ∀ reason ∈ blocked, Blocked e (w.since k) n session refTime reason) :
    Finds e n k (backtestObservations e session refTime blocked symbols : Capture σ (List ReferenceObservation))
      (fun x w' => ∀ obss, x = .ok obss → List.Forall₂ (fun symbol obs => obs.symbolRef = symbol ∧
        ModeEvidence e (w'.since k) n .backtest symbol session refTime now obs.toObserved) symbols obss) w := by
  induction symbols generalizing blocked w with
  | nil =>
    unfold backtestObservations
    refine finds_pure fun w' _ => ?_
    rintro _ ⟨⟩
    exact .nil
  | cons symbol symbols ih =>
    cases blocked with
    | some reason =>
      have hreason := hblocked reason rfl
      refine (ih (some reason) w hblocked).bind ?_ fun _ _ _ _ => of_raised
      intro rest w₁ _ hr₁ hrest
      refine finds_pure fun w₂ hr₂ => ?_
      rintro _ ⟨⟩
      refine .cons ⟨rfl, ?_⟩ ((hrest rest rfl).imp fun _ _ h => ⟨h.1, h.2.mono hr₂.since⟩)
      rcases hreason with ⟨rfl, hmap⟩ | ⟨rfl, other, hother⟩
      · exact Or.inr (Or.inl ⟨hmap, rfl⟩)
      · exact Or.inr (Or.inr (Or.inr ⟨other, hother.mono (hr₁.trans hr₂).since, rfl⟩))
    | none =>
      unfold backtestObservations
      refine Finds.bind (Q := fun x w' => ∀ obs, x = .ok obs → obs.1.symbolRef = symbol ∧
        ModeEvidence e (w'.since k) n .backtest symbol session refTime now obs.1.toObserved ∧
        ∀ reason ∈ obs.2, Blocked e (w'.since k) n session refTime reason) ?_ ?_ fun _ _ _ _ => of_raised
      · refine Finds.tryCatch (Q := fun x w' => (∀ obs, x = .ok obs → ∃ trades,
          Replied (w'.since k) n (.historicalTrades symbol session.openAt refTime) (.ok trades) ∧
            obs = (resolveBacktest symbol trades session refTime e.providerMap, none)) ∧
          ∀ error, x = .error error → Replied (w'.since k) n (.historicalTrades symbol session.openAt refTime) (.error error)) ?_ ?_ ?_
        · refine (finds_replied (.historicalTrades symbol session.openAt refTime) trivial).bind ?_ ?_
          · intro trades w₁ _ _ htrades
            refine finds_pure fun w₂ hr₂ => ⟨?_, fun _ herror => by cases herror⟩
            rintro _ ⟨⟩
            exact ⟨trades, htrades.mono hr₂.since, rfl⟩
          · intro error w₁ _ herror
            refine ⟨of_raised, ?_⟩
            rintro _ ⟨⟩
            exact herror
        · intro obs w₁ _ h
          obtain ⟨trades, htrades, rfl⟩ := h.1 obs rfl
          rintro _ ⟨⟩
          exact ⟨resolveBacktest_symbolRef symbol trades session refTime e.providerMap, Or.inl ⟨trades, htrades, rfl⟩,
            fun reason hreason => (Option.not_mem_none reason hreason).elim⟩
        · intro error w₁ _ _ h
          have hrefused := h.2 error rfl
          split
          · refine finds_pure fun w₂ hr₂ => ?_
            rintro _ ⟨⟩
            refine ⟨rfl, Or.inr (Or.inr (Or.inr ⟨symbol, hrefused.mono hr₂.since, rfl⟩)), ?_⟩
            rintro _ ⟨⟩
            exact Or.inr ⟨rfl, symbol, hrefused.mono hr₂.since⟩
          · refine finds_pure fun w₂ hr₂ => ?_
            rintro _ ⟨⟩
            exact ⟨rfl, Or.inr (Or.inr (Or.inl ⟨hrefused.mono hr₂.since, rfl⟩)),
              fun reason hreason => (Option.not_mem_none reason hreason).elim⟩
          · exact finds_throw fun _ _ => of_raised
      · intro obs w₁ _ _ hobs
        obtain ⟨hsymbol, hevidence, hblocked'⟩ := hobs obs rfl
        refine (ih obs.2 w₁ hblocked').bind ?_ fun _ _ _ _ => of_raised
        intro rest w₂ _ hr₂ hrest
        refine finds_pure fun w₃ hr₃ => ?_
        rintro _ ⟨⟩
        exact .cons ⟨hsymbol, hevidence.mono (hr₂.trans hr₃).since⟩
          ((hrest rest rfl).imp fun _ _ h => ⟨h.1, h.2.mono hr₃.since⟩)

/-! ### Writing the rows -/

/-- The rows that were found for some of the symbols name these in order. -/
theorem sublist_of_found {ρ : Type} {g : ρ → Ticker} {missing : List Ticker} {founds : List (Option ρ)}
    (h : List.Forall₂ (fun t found => ∀ r ∈ found, g r = t) missing founds) :
    ((founds.filterMap id).map g).Sublist missing := by
  induction h with
  | nil => exact .slnil
  | @cons t found missing founds hfound _ ih =>
    cases found with
    | none => exact ih.cons t
    | some r =>
      rw [List.filterMap_cons, id, List.map_cons, hfound r rfl]
      exact ih.cons_cons t

/-- Borne-out rows of missing symbols may be written, and then each of these symbols has its row. -/
theorem ends_rows {runId : UUID} {missing : List Ticker} {rows : List ExecutionReference} (hfresh : Fresh n runId missing w)
    (hnodup : missing.Nodup) (hsub : (rows.map (·.symbolRef)).Sublist missing)
    (hrows : ∀ r ∈ rows, r.runId = runId ∧ Justified e w.log r ∧ r.availableAt.instant ≤ w.clock)
    {Q : Except CaptureError Nat → World → Prop}
    (hok : ∀ k w', Grew n w w' → (∀ r ∈ rows, HasRow runId r.symbolRef w') → Q (.ok k) w')
    (herror : ∀ error w', Q (.error error) w') : Ends e n k (call (.recordExecutionReferences rows) : Capture σ Nat) Q w := by
  refine ends_record (fun w' hr => ?_) (fun k w' hg hmem => ?_) herror
  · refine (hfresh.rely hr).imp id fun hlocked => ⟨?_, fun r hr' => ?_⟩
    · have hkeys : rows.map executionReferenceKey = (rows.map (·.symbolRef)).map fun t => (runId, t) := by
        rw [List.map_map]
        exact List.map_congr_left fun r hr' => by rw [executionReferenceKey, (hrows r hr').1, Function.comp_apply]
      rw [KeyedTable.Unique, hkeys]
      exact (hsub.nodup hnodup).map fun _ _ h => (Prod.mk.inj h).2
    · obtain ⟨hrun, hjustified, hpast⟩ := hrows r hr'
      refine ⟨KeyedTable.find_eq_none.mpr fun r' hmem hkey => ?_, ?_, hjustified.mono hr.log.subset, hpast.trans hr.clock⟩
      · obtain ⟨hrun', hsymbol⟩ := Prod.mk.inj hkey
        refine hlocked.2 r' hmem (hrun'.trans hrun) ?_
        rw [hsymbol]
        exact hsub.subset (List.mem_map_of_mem hr')
      · rw [hrun]
        exact hlocked.1
  · exact hok k w' hg fun r hr' => ⟨r, hmem r hr', (hrows r hr').1, rfl⟩

/-! ### A capture -/

/-- The reference time of a mode is over: a live observation is too late, or the trades are there. -/
def Over (e : Service) (mode : RefMode) (refTime now : AwareDatetime) : Prop :=
  match mode with
  | .live => refTime.instant + e.config.liveCaptureGrace < now.instant
  | .backtest => refTime.instant ≤ now.instant

/-- The calendar of the time leaves a capture to wait. -/
def Waits (e : Service) (log : List (Nat × Event captureDesk)) (n : Nat) (run : RunRecord ℚ) (mode : RefMode)
    (committedAt now : AwareDatetime) : Prop :=
  (∃ session refTime, DayTold e log n run now session refTime ∧ ¬Over e mode refTime now) ∨
  (DayUntold e log n run now ∧ now.instant < committedAt.instant + e.config.calendarCoverageWait)

/-- A capture has read the run, its commitment and the required symbols. -/
structure Known (log : List (Nat × Event captureDesk)) (n : Nat) (mode : RefMode) (runId : UUID) (run : RunRecord ℚ)
    (committedAt : AwareDatetime) (symbols : List Ticker) : Prop where
  loaded : Replied log n (.loadRun runId) (.ok (some run))
  sameId : run.runId = runId
  sameMode : run.mode = .live ↔ mode = .live
  committed : Replied log n (.loadCommittedAt runId) (.ok (some committedAt))
  required : Required log n run symbols

/-- The run is not committed, or every required symbol has a row, or the capture has to wait. -/
def Settled (e : Service) (n k : Nat) (mode : RefMode) (runId : UUID) (now : AwareDatetime) (w : World) : Prop :=
  Replied (w.since k) n (.loadCommittedAt runId) (.ok none) ∨
  ∃ run committedAt symbols, Known (w.since k) n mode runId run committedAt symbols ∧
    ((∀ t ∈ symbols, HasRow runId t w) ∨ Waits e (w.since k) n run mode committedAt now)

section Capture
variable {mode : RefMode} {runId : UUID} {run : RunRecord ℚ} {committedAt now : AwareDatetime} {symbols missing : List Ticker}

theorem Known.mono {log log' : List (Nat × Event captureDesk)} (h : Known log n mode runId run committedAt symbols)
    (hlog : log ⊆ log') : Known log' n mode runId run committedAt symbols :=
  ⟨h.loaded.mono hlog, h.sameId, h.sameMode, h.committed.mono hlog, h.required.mono hlog⟩

/-- What a capture knows is a part of what bears its rows out. -/
theorem Known.justified {log : List (Nat × Event captureDesk)} {r : ExecutionReference}
    (h : Known log n mode runId run committedAt symbols) (hrun : r.runId = runId) (hmode : r.mode = mode)
    (hevidence : DayEvidence e log n run r ∨ UncoveredEvidence e log n run committedAt r) : Justified e log r := by
  subst hrun hmode
  exact ⟨n, run, committedAt, h.loaded, h.sameId, h.sameMode, h.committed, hevidence⟩

theorem Waits.mono {log log' : List (Nat × Event captureDesk)} (h : Waits e log n run mode committedAt now)
    (hlog : log ⊆ log') : Waits e log' n run mode committedAt now := by
  rcases h with ⟨session, refTime, htold, hnot⟩ | ⟨huntold, hlt⟩
  · exact Or.inl ⟨session, refTime, htold.mono hlog, hnot⟩
  · exact Or.inr ⟨huntold.mono hlog, hlt⟩

theorem Settled.grew (h : Settled e n k mode runId now w) (hg : Grew n w w') : Settled e n k mode runId now w' := by
  rcases h with hnone | ⟨run, committedAt, symbols, hknown, h⟩
  · exact Or.inl (hnone.mono hg.since)
  · exact Or.inr ⟨run, committedAt, symbols, hknown.mono hg.since,
      h.imp (fun h t ht => (h t ht).grew hg) fun h => h.mono hg.since⟩

/-- What a capture has found out when it turns to the missing symbols. -/
structure Ready (e : Service) (n k : Nat) (mode : RefMode) (runId : UUID) (run : RunRecord ℚ) (committedAt now : AwareDatetime)
    (symbols missing : List Ticker) (w : World) : Prop where
  known : Known (w.since k) n mode runId run committedAt symbols
  nodup : missing.Nodup
  fresh : Fresh n runId missing w
  others : ∀ t ∈ symbols, t ∉ missing → HasRow runId t w
  now : now.instant ≤ w.clock

theorem Ready.rely (h : Ready e n k mode runId run committedAt now symbols missing w) (hr : Rely n w w') :
    Ready e n k mode runId run committedAt now symbols missing w' :=
  ⟨h.known.mono hr.since, h.nodup, h.fresh.rely hr, fun t ht hmissing => (h.others t ht hmissing).grew hr.grew,
    h.now.trans hr.clock⟩

/-- The missing symbols that have their rows and the others are the required symbols, unless one is left to wait. -/
theorem Ready.settled (h : Ready e n k mode runId run committedAt now symbols missing w) (hg : Grew n w w')
    (hmissing : (∀ t ∈ missing, HasRow runId t w') ∨ Waits e (w'.since k) n run mode committedAt now) :
    Settled e n k mode runId now w' := by
  refine Or.inr ⟨run, committedAt, symbols, h.known.mono hg.since, hmissing.imp_left fun hmissing t ht => ?_⟩
  by_cases hmem : t ∈ missing
  · exact hmissing t hmem
  · exact (h.others t ht hmem).grew hg

theorem not_over {refTime : AwareDatetime} (h : now.instant < refTime.instant) : ¬Over e mode refTime now := by
  have hgrace := e.config.live_pos
  cases mode with
  | live =>
    simp only [Over]
    omega
  | backtest => exact not_le.mpr h

/-- Without a day the capture waits, or gives every missing symbol its row. -/
theorem ends_uncovered (h : Ready e n k mode runId run committedAt now symbols missing w) (huntold : DayUntold e (w.since k) n run now) :
    Ends e n k (uncovered e run mode missing committedAt now : Capture σ CaptureResult)
      (fun x w' => ∀ result, x = .ok result → Settled e n k mode runId now w') w := by
  unfold uncovered
  split
  · next hwait =>
    refine (finds_pure fun w' hr => ?_).ends
    intro _ _
    exact h.settled hr.grew (Or.inr (Or.inr ⟨huntold.mono hr.since, hwait⟩))
  · next hover =>
    have hrows := Finds.mapM (e := e) (n := n) (k := k) (σ := σ) (w := w)
      (g := fun t => orThrow (executionReference (uncoveredRow run mode now t)))
      (F := fun t r _ => r.toExecutionReferenceRow = uncoveredRow run mode now t) (fun _ _ _ _ _ h => h) missing
      fun t _ w' _ => finds_orThrow fun _ _ r hr => executionReference_eq_ok hr
    refine hrows.bind_ends ?_ fun _ _ _ _ => of_raised
    intro rows w₁ _ hr₁ hrows
    have h₁ := h.rely hr₁
    have hall := hrows rows rfl
    have hsymbols : rows.map (·.symbolRef) = missing := by
      rw [← Forall₂.map_eq (f := id) hall fun t r hrow => by rw [hrow, uncoveredRow, id], List.map_id]
    refine Ends.bind (Q := fun x w' => ∀ k, x = .ok k → Grew n w₁ w' ∧ ∀ r ∈ rows, HasRow runId r.symbolRef w') ?_ ?_
      fun _ _ _ _ => of_raised
    · refine ends_rows h₁.fresh h.nodup (hsymbols ▸ List.Sublist.refl _) (fun r hr => ?_) (fun k w' hg hhas _ _ => ⟨hg, hhas⟩)
        fun _ _ => of_raised
      obtain ⟨t, -, hrow⟩ := Forall₂.exists_of_mem_right hall hr
      refine ⟨?_, (h₁.known.justified ?_ ?_ (Or.inr ⟨?_, ?_, ?_, ?_, ?_⟩)).mono (since_subset w₁ k), ?_⟩
      all_goals rw [hrow]
      · exact h₁.known.sameId
      · exact h₁.known.sameId
      · rfl
      · exact huntold.mono hr₁.since
      · exact not_lt.mp hover
      · rfl
      · rfl
      · rfl
      · exact h₁.now
    · intro k w₂ _ _ hk
      obtain ⟨hg, hhas⟩ := hk k rfl
      refine (finds_pure fun w₃ hr₃ => ?_).ends
      rintro _ ⟨⟩
      refine h₁.settled (hg.trans hr₃.grew) (Or.inl fun t ht => ?_)
      rw [← hsymbols] at ht
      obtain ⟨r, hr, rfl⟩ := List.mem_map.mp ht
      exact (hhas r hr).grew hr₃.grew

/-- A capture is settled before it looks at prices, or it knows the missing symbols and their reference time. -/
theorem ends_due (hheld : Held n runId w) (hnow : now.instant ≤ w.clock) :
    Ends e n k (due e mode runId now : Capture σ Due) (fun x w' => ∀ found, x = .ok found →
      match found with
      | .settled _ => Settled e n k mode runId now w'
      | .rows missing session refTime => ∃ run committedAt symbols,
        Ready e n k mode runId run committedAt now symbols missing w' ∧ DayTold e (w'.since k) n run now session refTime ∧
        refTime.instant ≤ now.instant) w := by
  refine (finds_call (q := .loadRun runId) (Q := fun x w' => Replied (w'.since k) n (.loadRun runId) x ∧
    ∀ run, x = .ok (some run) → run.runId = runId) trivial fun x v w' _ heffect _ hreplied =>
      ⟨hreplied, heffect.1⟩).bind_ends ?_ fun _ _ _ _ => of_raised
  intro run w₁ _ hr₁ hrun
  cases run with
  | none => exact (finds_throw fun _ _ => of_raised).ends
  | some run =>
    dsimp only
    split
    · exact (finds_throw fun _ _ => of_raised).ends
    · next hmode =>
      refine (finds_replied (.loadCommittedAt runId) trivial).bind_ends ?_ fun _ _ _ _ => of_raised
      intro committedAt w₂ _ hr₂ hcommitted
      cases committedAt with
      | none =>
        refine (finds_pure fun w₃ hr₃ => ?_).ends
        rintro _ ⟨⟩
        exact Or.inl (hcommitted.mono hr₃.since)
      | some committedAt =>
        refine (finds_required run w₂).bind_ends ?_ fun _ _ _ _ => of_raised
        intro symbols w₃ _ hr₃ hsymbols
        obtain ⟨hnodup, hrequired⟩ := hsymbols symbols rfl
        have hr₁₃ := hr₁.trans (hr₂.trans hr₃)
        refine (finds_missing (hheld.rely hr₁₃) hnodup).bind_ends ?_ fun _ _ _ _ => of_raised
        intro missing w₄ _ hr₄ hmissing
        obtain ⟨hnodup', hfresh, hothers⟩ := hmissing missing rfl
        have hready : Ready e n k mode runId run committedAt now symbols missing w₄ := by
          refine ⟨⟨hrun.1.mono (hr₂.trans (hr₃.trans hr₄)).since, hrun.2 run rfl, iff_of_eq (not_not.mp hmode),
            hcommitted.mono (hr₃.trans hr₄).since, hrequired.mono hr₄.since⟩, hnodup', hfresh, hothers, ?_⟩
          exact hnow.trans (hr₁₃.trans hr₄).clock
        split
        · next hnil =>
          refine (finds_pure fun w₅ hr₅ => ?_).ends
          rintro _ ⟨⟩
          refine hready.settled hr₅.grew (Or.inl fun t ht => ?_)
          rw [hnil] at ht
          cases ht
        · refine (finds_referenceDay run now w₄).bind_ends ?_ fun _ _ _ _ => of_raised
          intro day w₅ _ hr₅ hday
          have h₅ := hready.rely hr₅
          cases day with
          | none =>
            refine (ends_uncovered h₅ (hday.2 rfl)).bind ?_ fun _ _ _ _ => of_raised
            intro result w₆ _ _ hsettled
            refine (finds_pure fun w₇ hr₇ => ?_).ends
            rintro _ ⟨⟩
            exact (hsettled result rfl).grew hr₇.grew
          | some day =>
            have htold := hday.1 day.1 day.2 rfl
            dsimp only
            split
            · next hearly =>
              refine (finds_pure fun w₆ hr₆ => ?_).ends
              rintro _ ⟨⟩
              exact h₅.settled hr₆.grew (Or.inr (Or.inl ⟨day.1, day.2, htold.mono hr₆.since, not_over hearly⟩))
            · next hlate =>
              refine (finds_pure fun w₆ hr₆ => ?_).ends
              rintro _ ⟨⟩
              exact ⟨run, committedAt, symbols, h₅.rely hr₆, htold.mono hr₆.since, not_lt.mp hlate⟩

/-- Rows on a told day are borne out. -/
theorem RowOn.written {session : TradingSession} {refTime : AwareDatetime} {symbol : Ticker} {r : ExecutionReference}
    (h : RowOn e (w.since k) n runId mode session refTime now symbol r)
    (hready : Ready e n k mode runId run committedAt now symbols missing w)
    (htold : DayTold e (w.since k) n run now session refTime) (hdue : refTime.instant ≤ now.instant) :
    r.runId = runId ∧ Justified e w.log r ∧ r.availableAt.instant ≤ w.clock := by
  obtain ⟨hrun, hsymbol, hmode, havailable, href, hdate, hevidence⟩ := h
  refine ⟨hrun, (hready.known.justified hrun hmode (Or.inl ⟨session, refTime, ?_, href, hdate, ?_, ?_⟩)).mono (since_subset w k), ?_⟩
  · rw [havailable]
    exact htold
  · rw [havailable]
    exact hdue
  · rw [hmode, hsymbol, havailable]
    exact hevidence
  · rw [havailable]
    exact hready.now

/-- Whatever the others do, a live capture under its lock writes only borne-out rows, and settles. -/
theorem ends_captureLive (hheld : Held n runId w) (hnow : now.instant ≤ w.clock) :
    Ends e n k (captureLive e runId now : Capture σ CaptureResult)
      (fun x w' => ∀ result, x = .ok result → Settled e n k .live runId now w') w := by
  refine (ends_due hheld hnow).bind ?_ fun _ _ _ _ => of_raised
  intro found w₁ _ _ hfound
  have hfound := hfound found rfl
  cases found with
  | settled result =>
    refine (finds_pure fun w₂ hr₂ => ?_).ends
    intro _ _
    exact Settled.grew hfound hr₂.grew
  | rows missing session refTime =>
    obtain ⟨run, committedAt, symbols, hready, htold, hdue⟩ := hfound
    have hrows := Finds.mapM (e := e) (n := n) (k := k) (σ := σ) (w := w₁) (g := liveRow e runId session refTime now)
      (F := fun t found w' => (∀ r ∈ found, RowOn e (w'.since k) n runId .live session refTime now t r) ∧
        (refTime.instant + e.config.liveCaptureGrace < now.instant → found.isSome))
      (fun _ _ _ _ hr h => ⟨fun r hr' => (h.1 r hr').mono hr.since, h.2⟩) missing fun t _ w' _ => finds_liveRow t w'
    refine hrows.bind_ends ?_ fun _ _ _ _ => of_raised
    intro founds w₂ _ hr₂ hfounds
    have hall := hfounds founds rfl
    have hready₂ := hready.rely hr₂
    have hsub := sublist_of_found (g := fun r : ExecutionReference => r.symbolRef) (hall.imp fun t found h r hr => (h.1 r hr).2.1)
    -- past the grace every missing symbol was given a row
    have hsettled {w' : World} (hg : Grew n w₂ w') (hhas : ∀ r ∈ founds.filterMap id, HasRow runId r.symbolRef w') :
        Settled e n k .live runId now w' := by
      refine hready₂.settled hg ?_
      by_cases hexpired : refTime.instant + e.config.liveCaptureGrace < now.instant
      · refine Or.inl fun t ht => ?_
        obtain ⟨found, hmem, hrow, hsome⟩ := Forall₂.exists_of_mem_left hall ht
        obtain ⟨r, rfl⟩ := Option.isSome_iff_exists.mp (hsome hexpired)
        rw [← (hrow r rfl).2.1]
        exact hhas r (List.mem_filterMap.mpr ⟨some r, hmem, rfl⟩)
      · exact Or.inr (Or.inl ⟨session, refTime, (htold.mono hr₂.since).mono hg.since, hexpired⟩)
    split
    · next hnil =>
      refine (finds_pure fun w₃ hr₃ => ?_).ends
      intro _ _
      refine hsettled hr₃.grew fun r hr => ?_
      rw [hnil] at hr
      cases hr
    · refine Ends.bind (Q := fun x w' => ∀ k, x = .ok k → Grew n w₂ w' ∧ ∀ r ∈ founds.filterMap id, HasRow runId r.symbolRef w')
        ?_ ?_ fun _ _ _ _ => of_raised
      · refine ends_rows hready₂.fresh hready.nodup hsub (fun r hr => ?_) (fun k w' hg hhas _ _ => ⟨hg, hhas⟩)
          fun _ _ => of_raised
        obtain ⟨found, hmem, hsome⟩ := List.mem_filterMap.mp hr
        obtain ⟨t, -, hrow⟩ := Forall₂.exists_of_mem_right hall hmem
        exact (hrow.1 r hsome).written hready₂ (htold.mono hr₂.since) hdue
      · intro k w₃ _ _ hk
        obtain ⟨hg, hhas⟩ := hk k rfl
        refine (finds_pure fun w₄ hr₄ => ?_).ends
        intro _ _
        exact (hsettled hg hhas).grew hr₄.grew

/-- The same of the backtest builder: it gives every missing symbol its row at once. -/
theorem ends_buildBacktest (hheld : Held n runId w) (hnow : now.instant ≤ w.clock) :
    Ends e n k (buildBacktest e runId now : Capture σ CaptureResult)
      (fun x w' => ∀ result, x = .ok result → Settled e n k .backtest runId now w') w := by
  refine (ends_due hheld hnow).bind ?_ fun _ _ _ _ => of_raised
  intro found w₁ _ _ hfound
  have hfound := hfound found rfl
  cases found with
  | settled result =>
    refine (finds_pure fun w₂ hr₂ => ?_).ends
    intro _ _
    exact Settled.grew hfound hr₂.grew
  | rows missing session refTime =>
    obtain ⟨run, committedAt, symbols, hready, htold, hdue⟩ := hfound
    have hblocked : ∀ reason ∈ blockedAtOnce e, Blocked e (w₁.since k) n session refTime reason := by
      intro reason hreason
      unfold blockedAtOnce at hreason
      split at hreason
      · cases hreason
      · next hmap =>
        cases hreason
        exact Or.inl ⟨rfl, Bool.not_eq_true _ ▸ hmap⟩
    refine (finds_backtestObservations now missing (blockedAtOnce e) w₁ hblocked).bind_ends ?_ fun _ _ _ _ => of_raised
    intro obss w₂ _ hr₂ hobss
    have hall := hobss obss rfl
    have hrows := Finds.mapM (e := e) (n := n) (k := k) (σ := σ) (w := w₂)
      (g := fun obs => orThrow (executionReference (observedRow runId .backtest session refTime now backtestVersion obs)))
      (F := fun obs r _ => executionReference (observedRow runId .backtest session refTime now backtestVersion obs) = .ok r)
      (fun _ _ _ _ _ h => h) obss fun obs _ w' _ => finds_orThrow fun _ _ r hr => hr
    refine hrows.bind_ends ?_ fun _ _ _ _ => of_raised
    intro rows w₃ _ hr₃ hrows
    have hready₃ := hready.rely (hr₂.trans hr₃)
    have hon : List.Forall₂ (fun t r => RowOn e (w₃.since k) n runId .backtest session refTime now t r) missing rows := by
      refine Forall₂.comp (fun t obs r hobs hrow => ?_) hall (hrows rows rfl)
      exact (rowOn_of_observed hrow hobs.1 hobs.2).mono hr₃.since
    have hsymbols : rows.map (·.symbolRef) = missing := by
      rw [← Forall₂.map_eq (f := id) hon fun t r hrow => hrow.2.1.symm, List.map_id]
    refine Ends.bind (Q := fun x w' => ∀ k, x = .ok k → Grew n w₃ w' ∧ ∀ r ∈ rows, HasRow runId r.symbolRef w') ?_ ?_
      fun _ _ _ _ => of_raised
    · refine ends_rows hready₃.fresh hready.nodup (hsymbols ▸ List.Sublist.refl _) (fun r hr => ?_)
        (fun k w' hg hhas _ _ => ⟨hg, hhas⟩) fun _ _ => of_raised
      obtain ⟨t, -, hrow⟩ := Forall₂.exists_of_mem_right hon hr
      exact hrow.written hready₃ (htold.mono (hr₂.trans hr₃).since) hdue
    · intro k w₄ _ _ hk
      obtain ⟨hg, hhas⟩ := hk k rfl
      refine (finds_pure fun w₅ hr₅ => ?_).ends
      intro _ _
      refine hready₃.settled (hg.trans hr₅.grew) (Or.inl fun t ht => ?_)
      rw [← hsymbols] at ht
      obtain ⟨r, hr, rfl⟩ := List.mem_map.mp ht
      exact (hhas r hr).grew hr₅.grew

end Capture

end ReferenceCapture
end AsymmetricCommittee
