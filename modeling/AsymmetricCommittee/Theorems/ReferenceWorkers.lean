import AsymmetricCommittee.Theorems.LiveReferences

/-! The tasks of reference capture at work together. Each writes under the lock of what it writes, so every row is borne out by
    what one worker was replied, and no write is ever refused for contradicting another. -/

namespace AsymmetricCommittee
namespace ReferenceCapture
open Reference ReferenceRules Store

variable {e : Service} {n k : Nat} {σ α β : Type} {w w' : World}

/-! ### Marks of a halt -/

section Halts
variable {req : HaltReferenceRequest} {runId : UUID} {trigger : KillTrigger} {symbolSet : HaltSymbolSet} {missing : List Ticker}
  {now : AwareDatetime}

/-- The worker has the lock, or has lost its session. -/
def Has (n : Nat) (l : UUID × String) (w : World) : Prop := w.locks.Has n l

theorem Has.rely {l : UUID × String} (h : Has n l w) (hr : Rely n w w') : Has n l w' := by
  rcases h with hlost | hlock
  · exact Or.inl (hr.lost hlost)
  · exact (hr.held l hlock).imp id And.left

/-- Under the lock the halt has no symbol set. -/
def NoSet (n : Nat) (runId : UUID) (trigger : KillTrigger) (w : World) : Prop :=
  w.locks.lost n ∨ w.locks.holder (runId, haltStage trigger) = some n ∧
    ∀ s ∈ w.tables.symbolSets, s.runId = runId → s.trigger ≠ trigger

/-- Under the lock none of the symbols has a mark. -/
def Unmarked (n : Nat) (runId : UUID) (trigger : KillTrigger) (missing : List Ticker) (w : World) : Prop :=
  w.locks.lost n ∨ w.locks.holder (runId, haltStage trigger) = some n ∧
    ∀ r ∈ w.tables.haltReferences, r.runId = runId → r.trigger = trigger → r.symbolRef ∉ missing

theorem NoSet.rely (h : NoSet n runId trigger w) (hr : Rely n w w') : NoSet n runId trigger w' := by
  rcases h with hlost | ⟨hlock, hsets⟩
  · exact Or.inl (hr.lost hlost)
  · refine (hr.held _ hlock).imp id fun h => ⟨h.1, fun s hs hrun htrigger => ?_⟩
    exact hsets s ((h.2.symbolSets trigger rfl s hrun htrigger).mp hs) hrun htrigger

theorem Unmarked.rely (h : Unmarked n runId trigger missing w) (hr : Rely n w w') : Unmarked n runId trigger missing w' := by
  rcases h with hlost | ⟨hlock, hrows⟩
  · exact Or.inl (hr.lost hlost)
  · refine (hr.held _ hlock).imp id fun h => ⟨h.1, fun r hr' hrun htrigger => ?_⟩
    exact hrows r ((h.2.haltReferences trigger rfl r hrun htrigger).mp hr') hrun htrigger

/-- The set of a halt without one may be written, and is there once the write has returned. -/
theorem ends_recordSet (h : NoSet n symbolSet.runId symbolSet.trigger w) :
    Ends e n k (call (.recordHaltSymbolSet symbolSet) : Capture σ Nat)
      (fun x w' => ∀ k, x = .ok k → Has n (symbolSet.runId, haltStage symbolSet.trigger) w' ∧ symbolSet ∈ w'.tables.symbolSets) w := by
  have hallowed (w' : World) (hr : Rely n w w') : Allowed e n w' (.request (.recordHaltSymbolSet symbolSet)) := by
    refine (h.rely hr).imp id fun hnone => ⟨KeyedTable.find_eq_none.mpr fun s hs hkey => ?_, hnone.1⟩
    obtain ⟨hrun, htrigger⟩ := Prod.mk.inj hkey
    exact hnone.2 s hs hrun htrigger
  intro _ s v hr hi
  refine ⟨hallowed v hr, ?_⟩
  rintro reply w₂ ⟨v', heffect, rfl⟩ hi₂
  have hlog : v.log <+: v.log ++ [(n, ⟨.request (.recordHaltSymbolSet symbolSet), reply⟩)] := List.prefix_append _ _
  rcases heffect with ⟨rfl, rfl⟩ | ⟨hlost, heffect⟩
  · exact fun w₃ hr₃ _ => ⟨hr.grew.trans ⟨hlog.trans hr₃.log, hr₃.clock, hr₃.lost, hr₃.references⟩, of_raised⟩
  · have hwritten : insertReferences symbolSetKey symbolSetColumns v.tables.symbolSets [symbolSet] =
        .ok (v.tables.symbolSets ++ [symbolSet], 1) := by
      refine insertReferences_of_fresh symbolSetColumns_same (fun s hs => ?_) (List.nodup_singleton _)
      rw [List.mem_singleton.mp hs]
      exact ((hallowed v hr).resolve_left hlost).1
    simp only [Writes, hwritten] at heffect
    obtain ⟨hreply, rfl⟩ := heffect
    have hlocked := ((h.rely hr).resolve_left hlost).1
    have hdone (w₃ : World) (hr₃ : Rely n { v with
        tables := { v.tables with symbolSets := v.tables.symbolSets ++ [symbolSet] }
        log := v.log ++ [(n, ⟨.request (.recordHaltSymbolSet symbolSet), reply⟩)] } w₃) :
        Grew n w w₃ ∧ Has n (symbolSet.runId, haltStage symbolSet.trigger) w₃ ∧ symbolSet ∈ w₃.tables.symbolSets :=
      ⟨hr.grew.trans ⟨hlog.trans hr₃.log, hr₃.clock, hr₃.lost, hr₃.references⟩, (hr₃.held _ hlocked).imp id And.left,
        hr₃.symbolSets.subset (List.mem_append_right _ List.mem_cons_self)⟩
    rcases hreply with rfl | rfl
    · exact fun w₃ hr₃ _ => ⟨(hdone w₃ hr₃).1, fun _ _ => (hdone w₃ hr₃).2⟩
    · exact fun w₃ hr₃ _ => ⟨(hdone w₃ hr₃).1, of_raised⟩

/-- The set that a sweep goes by is the stored one of its request. -/
theorem ends_haltSymbolSet (hhas : Has n (req.runId, haltStage req.trigger) w) :
    Ends e n k (haltSymbolSet e req now : Capture σ (Option HaltSymbolSet)) (fun x w' => ∀ found, x = .ok found →
      ∀ symbolSet ∈ found, symbolSet.runId = req.runId ∧ symbolSet.trigger = req.trigger ∧
        symbolSet ∈ w'.tables.symbolSets ∧ Has n (req.runId, haltStage req.trigger) w') w := by
  have hread : Finds e n k (call (.haltSymbolSet req.runId req.trigger) : Capture σ (Option HaltSymbolSet))
      (fun x w' => ∀ found, x = .ok found → (∀ symbolSet ∈ found, symbolSet.runId = req.runId ∧
        symbolSet.trigger = req.trigger ∧ symbolSet ∈ w'.tables.symbolSets) ∧
        (found = none → NoSet n req.runId req.trigger w')) w := by
    refine finds_call (q := .haltSymbolSet req.runId req.trigger) trivial ?_
    rintro x v w' hv heffect hr - found rfl
    rcases heffect.1 with h | h
    · cases h
    · cases h
      refine ⟨fun s hs => ?_, fun hnone => NoSet.rely (w := v) ?_ hr⟩
      · obtain ⟨hmem, hkey⟩ := KeyedTable.find_some hs
        obtain ⟨hrun, htrigger⟩ := Prod.mk.inj hkey
        exact ⟨hrun, htrigger, hr.symbolSets.subset hmem⟩
      · refine (hhas.rely hv).imp id fun hlock => ⟨hlock, fun s hs hrun htrigger => ?_⟩
        exact KeyedTable.find_eq_none.mp hnone s hs (Prod.ext hrun htrigger)
  refine hread.bind_ends ?_ fun _ _ _ _ => of_raised
  intro existing w₁ _ hr₁ hexisting
  obtain ⟨hstored, hnone⟩ := hexisting existing rfl
  cases existing with
  | some symbolSet =>
    refine (finds_pure fun w₂ hr₂ => ?_).ends
    rintro _ ⟨⟩ _ ⟨⟩
    obtain ⟨hrun, htrigger, hmem⟩ := hstored symbolSet rfl
    exact ⟨hrun, htrigger, hr₂.symbolSets.subset hmem, (hhas.rely hr₁).rely hr₂⟩
  | none =>
    have hno : ∀ w' : World, ∀ found, (Except.ok none : Except CaptureError (Option HaltSymbolSet)) = .ok found →
        ∀ symbolSet ∈ found, symbolSet.runId = req.runId ∧ symbolSet.trigger = req.trigger ∧
          symbolSet ∈ w'.tables.symbolSets ∧ Has n (req.runId, haltStage req.trigger) w' := by
      rintro w' _ ⟨⟩ symbolSet hmem
      cases hmem
    refine (finds_replied (.loadRun req.runId) trivial).bind_ends ?_ fun _ _ _ _ => of_raised
    intro run w₂ _ hr₂ _
    cases run with
    | none => exact (finds_pure fun w₃ _ => hno w₃).ends
    | some run =>
      refine (finds_symbolGroups run w₂).bind_ends ?_ fun _ _ _ _ => of_raised
      intro groups w₃ _ hr₃ _
      dsimp only
      split
      · exact (finds_pure fun w₄ _ => hno w₄).ends
      · split
        · refine (ends_recordSet ((hnone rfl).rely (hr₂.trans hr₃))).bind ?_ fun _ _ _ _ => of_raised
          intro k w₄ _ _ hk
          obtain ⟨hlocked, hmem⟩ := hk k rfl
          refine (finds_pure fun w₅ hr₅ => ?_).ends
          rintro _ ⟨⟩ _ ⟨⟩
          exact ⟨rfl, rfl, hr₅.symbolSets.subset hmem, hlocked.rely hr₅⟩
        · exact (finds_throw fun _ _ => of_raised).ends

/-- Rows of a request for some of the symbols, in their order. -/
def MarksOf (req : HaltReferenceRequest) (missing : List Ticker) (rows : List HaltReference) : Prop :=
  (rows.map (·.symbolRef)).Sublist missing ∧ ∀ r ∈ rows, r.runId = req.runId ∧ r.trigger = req.trigger

/-- A row of a request for a symbol. -/
def MarkOf (req : HaltReferenceRequest) (symbol : Ticker) (found : Option HaltReference) : Prop :=
  ∀ r ∈ found, r.symbolRef = symbol ∧ r.runId = req.runId ∧ r.trigger = req.trigger

theorem marksOf_found {founds : List (Option HaltReference)} (h : List.Forall₂ (MarkOf req) missing founds) :
    MarksOf req missing (founds.filterMap id) := by
  refine ⟨sublist_of_found (g := fun r : HaltReference => r.symbolRef) (h.imp fun _ _ h r hr => (h r hr).1), fun r hr => ?_⟩
  obtain ⟨found, hmem, hsome⟩ := List.mem_filterMap.mp hr
  obtain ⟨_, -, hmark⟩ := Forall₂.exists_of_mem_right h hmem
  exact (hmark r hsome).2

theorem reconstructHalt_symbolRef (symbol : Ticker) (trades : List SipTrade) (tau : AwareDatetime)
    (sessions : List TradingSession) (pmap : TradeConditions.ProviderCodeMap) :
    (reconstructHalt symbol trades tau sessions pmap).symbolRef = symbol := by
  unfold reconstructHalt
  split
  · rfl
  · exact decideGroups_symbolRef symbol tau _

theorem finds_haltLiveRow (symbol : Ticker) (w : World) :
    Finds e n k (haltLiveRow req symbolSet now symbol : Capture σ (Option HaltReference))
      (fun x _ => ∀ found, x = .ok found → MarkOf req symbol found) w := by
  refine (finds_resolveLive symbol now w).bind ?_ fun _ _ _ _ => of_raised
  intro obs w₁ _ _ hobs
  refine finds_pure fun w₂ _ => ?_
  rintro _ ⟨⟩
  intro r hr
  split at hr
  · cases hr
    exact ⟨(hobs obs rfl).1, rfl, rfl⟩
  · cases hr

theorem finds_reconstructedRow {session : TradingSession} (symbol : Ticker) (w : World) :
    Finds e n k (reconstructedRow e req symbolSet session now symbol : Capture σ (Option HaltReference))
      (fun x _ => ∀ found, x = .ok found → MarkOf req symbol found) w := by
  unfold reconstructedRow
  refine Finds.bind (Q := fun x _ => ∀ obs, x = .ok obs → obs.symbolRef = symbol) ?_ ?_ fun _ _ _ _ => of_raised
  · refine Finds.tryCatch (Q := fun x _ => ∀ obs, x = .ok obs → obs.symbolRef = symbol) ?_ (fun _ _ _ h => h) ?_
    · refine (finds_replied (.historicalTrades symbol session.openAt _) trivial).bind ?_ fun _ _ _ _ => of_raised
      intro trades w₁ _ _ _
      refine finds_pure fun w₂ _ => ?_
      rintro _ ⟨⟩
      exact reconstructHalt_symbolRef symbol trades req.tau [session] e.providerMap
    · intro error w₁ _ _ _
      split
      · refine finds_pure fun w₂ _ => ?_
        rintro _ ⟨⟩
        rfl
      · refine finds_pure fun w₂ _ => ?_
        rintro _ ⟨⟩
        rfl
      · exact finds_throw fun _ _ => of_raised
  · intro obs w₁ _ _ hobs
    split
    · refine finds_pure fun w₂ _ => ?_
      rintro _ ⟨⟩ r hr
      cases hr
    · refine finds_pure fun w₂ _ => ?_
      rintro _ ⟨⟩ _ ⟨⟩
      exact ⟨hobs obs rfl, rfl, rfl⟩

/-- The same reason for every missing symbol. -/
theorem marksOf_all (reason : RefReason) : MarksOf req missing
    (missing.map fun s => haltRow req symbolSet (unresolved s now reason) now now) := by
  have hsymbols : (missing.map fun s => haltRow req symbolSet (unresolved s now reason) now now).map (·.symbolRef) = missing := by
    rw [List.map_map]
    exact List.map_id missing
  refine ⟨?_, fun r hr => ?_⟩
  · rw [hsymbols]
  · obtain ⟨s, -, rfl⟩ := List.mem_map.mp hr
    exact ⟨rfl, rfl⟩

theorem marksOf_nil : MarksOf req missing [] := ⟨List.nil_sublist _, fun _ hr => (List.not_mem_nil hr).elim⟩

theorem finds_haltByReconstruction (w : World) :
    Finds e n k (haltByReconstruction e req symbolSet missing now : Capture σ (List HaltReference))
      (fun x _ => ∀ rows, x = .ok rows → MarksOf req missing rows) w := by
  have hgive (rows : List HaltReference) (hrows : MarksOf req missing rows) (w' : World) :
      Finds e n k (pure rows : Capture σ (List HaltReference)) (fun x _ => ∀ rows, x = .ok rows → MarksOf req missing rows) w' := by
    refine finds_pure fun w'' _ => ?_
    rintro _ ⟨⟩
    exact hrows
  have hsession : Finds e n k (haltSession e req now : Capture σ (Option TradingSession)) (fun _ _ => True) w := by
    refine Finds.tryCatch (Q := fun _ _ => True) ?_ (fun _ _ _ _ => trivial) ?_
    · refine (finds_replied (.tradingCalendar now) trivial).bind ?_ fun _ _ _ _ => trivial
      intro cal w₁ _ _ _
      split
      · exact finds_pure fun _ _ => trivial
      · exact finds_throw fun _ _ => trivial
    · intro error w₁ _ _ _
      split
      · exact finds_pure fun _ _ => trivial
      · exact finds_throw fun _ _ => trivial
  refine hsession.bind ?_ fun _ _ _ _ => of_raised
  intro session w₁ _ _ _
  cases session with
  | none =>
    dsimp only
    split
    · exact hgive [] marksOf_nil w₁
    · exact hgive _ (marksOf_all _) w₁
  | some session =>
    dsimp only
    split
    · exact hgive [] marksOf_nil w₁
    · split
      · split
        · exact hgive _ (marksOf_all _) w₁
        · exact hgive [] marksOf_nil w₁
      · have hrows := Finds.mapM (e := e) (n := n) (k := k) (σ := σ) (w := w₁) (g := reconstructedRow e req symbolSet session now)
          (F := fun t found _ => MarkOf req t found) (fun _ _ _ _ _ h => h) missing fun t _ w' _ => finds_reconstructedRow t w'
        refine hrows.bind ?_ fun _ _ _ _ => of_raised
        intro founds w₂ _ _ hfounds
        exact hgive _ (marksOf_found (hfounds founds rfl)) w₂

/-- Marks of symbols without one, which the stored set names, may be written. -/
theorem ends_recordRows {rows : List HaltReference} (hunmarked : Unmarked n req.runId req.trigger missing w)
    (hnodup : missing.Nodup) (hset : symbolSet.runId = req.runId ∧ symbolSet.trigger = req.trigger ∧
      symbolSet ∈ w.tables.symbolSets) (hsymbols : ∀ t ∈ missing, t ∈ symbolSet.symbols) (hrows : MarksOf req missing rows) :
    Ends e n k (recordRows rows : Capture σ Nat) (fun _ _ => True) w := by
  unfold recordRows
  split
  · exact (finds_pure fun _ _ => trivial).ends
  intro _ s v hr hi
  refine ⟨?_, ?_⟩
  · refine (hunmarked.rely hr).imp id fun hlocked => ⟨?_, fun r hr' => ?_⟩
    · have hkeys : rows.map haltReferenceKey = (rows.map (·.symbolRef)).map fun t => (req.runId, req.trigger, t) := by
        rw [List.map_map]
        exact List.map_congr_left fun r hr' => by
          rw [haltReferenceKey, (hrows.2 r hr').1, (hrows.2 r hr').2, Function.comp_apply]
      rw [KeyedTable.Unique, hkeys]
      exact (hrows.1.nodup hnodup).map fun _ _ h => (Prod.mk.inj (Prod.mk.inj h).2).2
    · obtain ⟨hrun, htrigger⟩ := hrows.2 r hr'
      have hmem : r.symbolRef ∈ missing := hrows.1.subset (List.mem_map_of_mem hr')
      refine ⟨KeyedTable.find_eq_none.mpr fun r' hr'' hkey => ?_, ?_, symbolSet, hr.symbolSets.subset hset.2.2,
        hset.1.trans hrun.symm, hset.2.1.trans htrigger.symm, hsymbols _ hmem⟩
      · obtain ⟨hrun', hrest⟩ := Prod.mk.inj hkey
        obtain ⟨htrigger', hsymbol⟩ := Prod.mk.inj hrest
        refine hlocked.2 r' hr'' (hrun'.trans hrun) (htrigger'.trans htrigger) ?_
        rw [hsymbol]
        exact hmem
      · rw [hrun, htrigger]
        exact hlocked.1
  · rintro reply w₂ ⟨v', heffect, rfl⟩ hi₂
    have hlog : v.log <+: v.log ++ [(n, ⟨.request (.recordHaltReferences rows), reply⟩)] := List.prefix_append _ _
    have hdone (w₃ : World) (hr₃ : Rely n { v' with log := v.log ++ [(n, ⟨.request (.recordHaltReferences rows), reply⟩)] } w₃)
        (hclock : v'.clock = v.clock) (hlost : v'.locks.lost = v.locks.lost) (htables : v'.tables.executionReferences = v.tables.executionReferences) :
        Grew n w w₃ :=
      hr.grew.trans ⟨hlog.trans hr₃.log, hclock ▸ hr₃.clock, fun h => hr₃.lost (hlost ▸ h), htables ▸ hr₃.references⟩
    have hsame : v'.clock = v.clock ∧ v'.locks.lost = v.locks.lost ∧ v'.tables.executionReferences = v.tables.executionReferences := by
      rcases heffect with ⟨-, rfl⟩ | ⟨-, heffect⟩
      · exact ⟨rfl, rfl, rfl⟩
      · unfold Writes at heffect
        split at heffect
        · rw [heffect.2]
          exact ⟨rfl, rfl, rfl⟩
        · rw [heffect.2]
          exact ⟨rfl, rfl, rfl⟩
    cases reply with
    | ok k => exact fun w₃ hr₃ _ => ⟨hdone w₃ hr₃ hsame.1 hsame.2.1 hsame.2.2, trivial⟩
    | error error => exact fun w₃ hr₃ _ => ⟨hdone w₃ hr₃ hsame.1 hsame.2.1 hsame.2.2, trivial⟩

/-- A sweep resolves a request under its lock as it may. -/
theorem ends_resolveHalt (hhas : Has n (req.runId, haltStage req.trigger) w) :
    Ends e n k (resolveHalt e req now : Capture σ Nat) (fun _ _ => True) w := by
  refine (ends_haltSymbolSet hhas).bind ?_ fun _ _ _ _ => trivial
  intro found w₁ _ _ hfound
  cases found with
  | none => exact (finds_pure fun _ _ => trivial).ends
  | some symbolSet =>
    obtain ⟨hrun, htrigger, hmem, hhas₁⟩ := hfound (some symbolSet) rfl symbolSet rfl
    have hnodup : symbolSet.symbols.Nodup := List.Pairwise.of_map _ (fun a b hlt heq => hlt.ne (congrArg Subtype.val heq)) symbolSet.sorted
    refine (finds_call (q := .haltReferences req.runId req.trigger) (Q := fun x w' => ∀ rows, x = .ok rows →
      Unmarked n req.runId req.trigger (symbolSet.symbols.filter fun s => decide (s ∉ rows.map (·.symbolRef))) w')
      trivial ?_).bind_ends ?_ fun _ _ _ _ => trivial
    · rintro x v w' hv heffect hr - rows rfl
      rcases heffect.1 with h | h
      · cases h
      · cases h
        refine Unmarked.rely (w := v) ((hhas₁.rely hv).imp id fun hlock => ⟨hlock, fun r hr' hrun' htrigger' hmissing => ?_⟩) hr
        have hno := (List.mem_filter.mp hmissing).2
        simp only [decide_eq_true_eq, List.mem_map, mem_haltReferences] at hno
        exact hno ⟨r, ⟨hr', hrun', htrigger'⟩, rfl⟩
    · intro rows w₂ _ hr₂ hrows
      have hunmarked := hrows rows rfl
      have hset (w' : World) (hr : Rely n w₂ w') : symbolSet.runId = req.runId ∧ symbolSet.trigger = req.trigger ∧
          symbolSet ∈ w'.tables.symbolSets := ⟨hrun, htrigger, (hr₂.trans hr).symbolSets.subset hmem⟩
      have hsub : ∀ t ∈ symbolSet.symbols.filter fun s => decide (s ∉ rows.map (·.symbolRef)), t ∈ symbolSet.symbols :=
        fun t ht => (List.mem_filter.mp ht).1
      dsimp only
      split
      · exact (finds_pure fun _ _ => trivial).ends
      · split
        · have hlive := Finds.mapM (e := e) (n := n) (k := k) (σ := σ) (w := w₂) (g := haltLiveRow req symbolSet now)
            (F := fun t found _ => MarkOf req t found) (fun _ _ _ _ _ h => h)
            (symbolSet.symbols.filter fun s => decide (s ∉ rows.map (·.symbolRef))) fun t _ w' _ => finds_haltLiveRow t w'
          refine hlive.bind_ends ?_ fun _ _ _ _ => trivial
          intro founds w₃ _ hr₃ hfounds
          exact ends_recordRows (hunmarked.rely hr₃) (hnodup.filter _) (hset w₃ hr₃) hsub (marksOf_found (hfounds founds rfl))
        · refine (finds_haltByReconstruction w₂).bind_ends ?_ fun _ _ _ _ => trivial
          intro rows' w₃ _ hr₃ hrows'
          exact ends_recordRows (hunmarked.rely hr₃) (hnodup.filter _) (hset w₃ hr₃) hsub (hrows' rows' rfl)

end Halts

/-! ### Tasks -/

section Tasks
variable {m : Capture σ α} {f : α → Capture σ β}

/-- The steps may be taken, and come to anything. -/
abbrev Safe (e : Service) (n : Nat) (m : Capture σ α) (w : World) : Prop := Ends e n 0 m (fun _ _ => True) w

theorem Safe.bind (h : Safe e n m w) (hf : ∀ a w', Inv e w' → Grew n w w' → Safe e n (f a) w') : Safe e n (m >>= f) w :=
  Ends.bind h (fun a w' hi hg _ => hf a w' hi hg) fun _ _ _ _ => trivial

theorem Safe.tryCatch {handle : CaptureError → Capture σ α} (h : Safe e n m w)
    (hhandle : ∀ error w', Inv e w' → Grew n w w' → Safe e n (handle error) w') : Safe e n (tryCatch m handle) w := fun hk =>
  Act.Leads.tryCatch (course_grew e n) (h hk) (fun _ _ _ _ => trivial) fun error w' hi hg _ =>
    hhandle error w' hi hg (Nat.zero_le _)

theorem safe_pure (a : α) (w : World) : Safe e n (pure a : Capture σ α) w := (finds_pure fun _ _ => trivial).ends

theorem safe_throw (error : CaptureError) (w : World) : Safe e n (throw error : Capture σ α) w :=
  (finds_throw fun _ _ => trivial).ends

theorem safe_modify (g : σ → σ) (w : World) : Safe e n (modify g : Capture σ Unit) w :=
  fun _ => Act.leads_modify (course_grew e n) fun _ _ => trivial

theorem safe_forM {g : α → Capture σ Unit} (l : List α) (h : ∀ a w', Grew n w w' → Safe e n (g a) w') :
    Safe e n (l.forM g) w := by
  induction l generalizing w with
  | nil => exact safe_pure () w
  | cons a l ih =>
    show Safe e n (g a >>= fun _ => l.forM g) w
    exact (h a w ⟨List.prefix_refl _, le_rfl, id, List.prefix_refl _⟩).bind fun _ w' _ hg =>
      ih fun a' w'' hg' => h a' w'' (hg.trans hg')

/-- The time that is read has come. -/
theorem finds_readClock (w : World) :
    Finds e n k (readClock : Capture σ AwareDatetime) (fun x w' => ∀ now, x = .ok now → now.instant ≤ w'.clock) w := by
  intro _ s v hr hi
  refine ⟨trivial, ?_⟩
  rintro reply w₂ ⟨v', ⟨hreply, rfl⟩, rfl⟩ hi₂ w₃ hr₃ _
  have hnoted := (keeps_noted (x := (n, ⟨.clock, reply⟩)) hi rfl).2 n
  refine ⟨hr.trans (hnoted.trans hr₃), ?_⟩
  rintro _ ⟨⟩
  exact hreply.trans_le hr₃.clock

/-- A block runs with the lock when it is granted, and without when it is not. -/
theorem safe_runLock {runId : UUID} {stage : String} {block : Bool → Capture σ Unit}
    (hblock : ∀ w', Grew n w w' → Has n (runId, stage) w' → Safe e n (block true) w')
    (hfree : ∀ w', Grew n w w' → Safe e n (block false) w') : Safe e n (runLock runId stage block) w := by
  have htry : Ends e n 0 (call (.tryLock runId stage) : Capture σ Bool)
      (fun x w' => x = .ok true → Has n (runId, stage) w') w := by
    intro _ s v hr hi
    refine ⟨trivial, ?_⟩
    rintro reply w₂ ⟨v', heffect, rfl⟩ hi₂
    have hlog : v.log <+: v.log ++ [(n, ⟨.request (.tryLock runId stage), reply⟩)] := List.prefix_append _ _
    rcases heffect with ⟨rfl, rfl⟩ | ⟨-, heffect⟩
    · exact fun w₃ hr₃ _ => ⟨hr.grew.trans ⟨hlog.trans hr₃.log, hr₃.clock, hr₃.lost, hr₃.references⟩, fun h => by cases h⟩
    · split at heffect
      · obtain ⟨rfl, rfl⟩ := heffect
        exact fun w₃ hr₃ _ => ⟨hr.grew.trans ⟨hlog.trans hr₃.log, hr₃.clock, hr₃.lost, hr₃.references⟩,
          fun _ => (hr₃.held (runId, stage) (if_pos rfl)).imp id And.left⟩
      · obtain ⟨rfl, rfl⟩ := heffect
        exact fun w₃ hr₃ _ => ⟨hr.grew.trans ⟨hlog.trans hr₃.log, hr₃.clock, hr₃.lost, hr₃.references⟩, fun h => by cases h⟩
  have hunlock (w' : World) : Safe e n (call (.unlock runId stage) : Capture σ Unit) w' := by
    intro _ s v hr hi
    refine ⟨trivial, ?_⟩
    rintro reply w₂ ⟨v', heffect, rfl⟩ hi₂
    have hlog : v.log <+: v.log ++ [(n, ⟨.request (.unlock runId stage), reply⟩)] := List.prefix_append _ _
    have hdone (w₃ : World) (hr₃ : Rely n { v' with log := v.log ++ [(n, ⟨.request (.unlock runId stage), reply⟩)] } w₃) :
        Grew n w' w₃ := by
      rcases heffect with ⟨-, rfl⟩ | ⟨-, rfl⟩
      · exact hr.grew.trans ⟨hlog.trans hr₃.log, hr₃.clock, hr₃.lost, hr₃.references⟩
      · exact hr.grew.trans ⟨hlog.trans hr₃.log, hr₃.clock, hr₃.lost, hr₃.references⟩
    cases reply with
    | ok u => exact fun w₃ hr₃ _ => ⟨hdone w₃ hr₃, trivial⟩
    | error error => exact fun w₃ hr₃ _ => ⟨hdone w₃ hr₃, trivial⟩
  refine Ends.bind htry ?_ fun _ _ _ _ => trivial
  intro got w₁ _ hg₁ hgot
  have hresult : Safe e n (block got) w₁ := by
    cases got with
    | true => exact hblock w₁ hg₁ (hgot rfl)
    | false => exact hfree w₁ hg₁
  refine Safe.bind (Safe.tryCatch (hresult.bind fun _ w' _ _ => safe_pure _ w') fun _ w' _ _ => safe_pure _ w') ?_
  intro result w₂ _ _
  have hraise (w' : World) : Safe e n (orThrow result : Capture σ Unit) w' := (finds_orThrow fun _ _ => trivial).ends
  dsimp only
  split
  · exact (hunlock w₂).bind fun _ w' _ _ => hraise w'
  · exact hraise w₂

theorem safe_isolate {runId : UUID} {stage : String} {steps : Capture Poll Nat}
    (h : ∀ w', Grew n w w' → Has n (runId, stage) w' → Safe e n steps w') : Safe e n (isolate runId stage steps) w := by
  refine Safe.tryCatch (safe_runLock (fun w' hg hhas => ?_) fun w' _ => ?_) fun error w' _ _ => safe_modify _ w'
  · rw [if_pos rfl]
    exact (h w' hg hhas).bind fun _ w'' _ _ => safe_modify _ w''
  · rw [if_neg Bool.false_ne_true]
    exact safe_pure () w'

theorem safe_captureDueReferences (w : World) : Safe e n (captureDueReferences e) w := by
  refine (finds_readClock w).bind_ends ?_ fun _ _ _ _ => trivial
  intro now w₁ _ _ hnow
  refine (finds_replied .listRuns trivial).bind_ends ?_ fun _ _ _ _ => trivial
  intro runs w₂ _ hr₂ _
  refine safe_forM runs fun run w₃ hg₃ => ?_
  split
  · exact safe_pure () w₃
  · refine safe_isolate fun w₄ hg₄ hhas => ?_
    have hnow₄ : now.instant ≤ w₄.clock := (hnow now rfl).trans (hr₂.grew.trans (hg₃.trans hg₄)).clock
    exact Safe.bind ((ends_captureLive hhas hnow₄).mono fun _ _ _ => trivial) fun result w' _ _ => safe_pure result.written w'

theorem safe_buildBacktestReferences (runId : UUID) (w : World) : Safe e n (buildBacktestReferences e runId) w := by
  refine safe_runLock (fun w₁ _ hhas => ?_) fun w₁ _ => ?_
  · rw [if_pos rfl]
    refine (finds_readClock w₁).bind_ends ?_ fun _ _ _ _ => trivial
    intro now w₂ _ hr₂ hnow
    refine Safe.bind ((ends_buildBacktest (hhas.rely hr₂) (hnow now rfl)).mono fun _ _ _ => trivial) fun _ w' _ _ => safe_pure () w'
  · rw [if_neg Bool.false_ne_true]
    exact safe_pure () w₁

theorem safe_sweepHaltReferences (w : World) : Safe e n (sweepHaltReferences e) w := by
  refine (finds_readClock w).bind_ends ?_ fun _ _ _ _ => trivial
  intro now w₁ _ _ _
  refine (finds_replied .pendingHaltRequests trivial).bind_ends ?_ fun _ _ _ _ => trivial
  intro pending w₂ _ _ _
  exact safe_forM pending fun req w₃ _ => safe_isolate fun w₄ _ hhas => ends_resolveHalt hhas

end Tasks

/-! ### The pool -/

/-- The workers keep their promises among each other. -/
theorem workers_sound (e : Service) : Pool.Sound (workers e) (contract e) (Inv e) where
  invs _ _ hi := hi
  move _ _ hi hmove := keeps_move hi hmove
  call n c w r w' hi hallowed hans := by
    obtain ⟨hi', hothers⟩ := keeps_call hi hallowed hans
    exact ⟨hi', hans, hothers⟩
  start n w p _ hstart := by
    have hsafe {m : Capture Poll Unit} (h : ∀ w, Safe e n m w) :
        ((m.start ⟨0, []⟩).void).Meets (contract e n) (fun _ _ => True) w :=
      Program.Meets.void (h w (Nat.zero_le _) ⟨0, []⟩)
    cases hstart with
    | capture _ _ => exact hsafe safe_captureDueReferences
    | backtest runId _ _ => exact hsafe (safe_buildBacktestReferences runId)
    | sweep _ _ => exact hsafe safe_sweepHaltReferences

/-- Empty tables at a time. -/
def World.opened (clock : Int) : World := ⟨clock, ⟨[], [], []⟩, Locks.idle, []⟩

theorem inv_opened (e : Service) (clock : Int) : Inv e (World.opened clock) where
  references := List.nodup_nil
  symbolSets := List.nodup_nil
  haltReferences := List.nodup_nil
  justified _ hr := (List.not_mem_nil hr).elim
  past _ hr := (List.not_mem_nil hr).elim
  marks _ hr := (List.not_mem_nil hr).elim

theorem good_reached {clock : Int} {s : Pool captureDesk World}
    (h : Pool.Reaches (workers e) (Pool.idle (World.opened clock)) s) : Pool.Good (contract e) (Inv e) s :=
  (Pool.good_idle (inv_opened e clock)).reaches (workers_sound e) h

end ReferenceCapture
end AsymmetricCommittee
