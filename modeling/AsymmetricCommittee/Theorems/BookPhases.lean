import AsymmetricCommittee.Execution.Executor

/-! Rules for the shared phases of a book: what holds of one name's step holds of a phase, name by name, beside the list
    of the targets. -/

namespace AsymmetricCommittee
namespace Executor
variable {K : Type} [Field K] [LinearOrder K] {W : Type} {C : Contract (desk K) W} {w : W}

/-! ### Calls -/

/-- The calls of a name's steps and of the waiting. -/
def BookCall : (desk K).Call → Prop
  | .request (.findByClientId _) | .request (.getOrder _) | .request (.submit _) | .request (.cancelOrder _)
  | .request (.findExecution _) | .request (.recordExecutions _) | .request (.reference _) | .clock | .sleep _ => True
  | _ => False

/-- The calls of a name's steps that send nothing. -/
def TendCall : (desk K).Call → Prop
  | .request (.findByClientId _) | .request (.getOrder _) | .request (.cancelOrder _) | .request (.findExecution _)
  | .request (.recordExecutions _) | .request (.reference _) | .clock | .sleep _ => True
  | _ => False

/-- And of those that send: limit orders or market orders, and to buy only while the switch is idle. -/
def SendCall (isLimit : Bool) (ks : KillSwitch) : (desk K).Call → Prop
  | .request (.submit order) => order.limitPrice.isSome = isLimit ∧ (order.side = .buy → ks.halted = false)
  | c => TendCall c

theorem bookCall_of_tendCall {c : (desk K).Call} (h : TendCall c) : BookCall c := by
  unfold TendCall at h
  split at h
  all_goals trivial

theorem bookCall_of_sendCall {isLimit : Bool} {ks : KillSwitch} {c : (desk K).Call} (h : SendCall isLimit ks c) :
    BookCall c := by
  unfold SendCall at h
  split at h
  · trivial
  · exact bookCall_of_tendCall h

theorem sendCall_of_tendCall {isLimit : Bool} {ks : KillSwitch} {c : (desk K).Call} (h : TendCall c) :
    SendCall isLimit ks c := by
  unfold SendCall
  split
  · exact h.elim
  · exact h

section Requests
variable {σ α : Type} {s : σ}

theorem meets_request_of {r : Request K} {Q : Except ExecError r.Value → σ → W → Prop}
    (h : C.Stays (fun w => C.allowed (.request r) w ∧ ∀ (reply : Except Failure r.Value) w',
      C.answers (.request r) w reply w' → C.inv w' → C.Stays (Q (reply.mapError .raised) s) w') w) :
    (request r : Steps K σ r.Value).Meets C s Q w := by
  refine fun w₁ hr hi => ?_
  obtain ⟨hallowed, hnext⟩ := h w₁ hr hi
  refine ⟨hallowed, fun reply w₂ hans hi₂ => ?_⟩
  have hstays := hnext reply w₂ hans hi₂
  cases reply with
  | ok v => exact hstays
  | error f => exact hstays

end Requests

/-! ### One name -/

/-- The calls that make and keep evidence. -/
def EvidenceCall : (desk K).Call → Prop
  | .request (.findExecution _) | .request (.recordExecutions _) | .request (.reference _) => True
  | _ => False

section Evidence
variable {leg : Leg K} (hfree : ∀ c w, EvidenceCall c → C.inv w → C.allowed c w)
include hfree

/-- Looking up the reference only changes the one looked up. -/
theorem reference_meets : (Leg.reference : Steps K (Leg K) _).Meets C leg
    (fun _ leg' _ => ∃ fresh, leg' = { leg with fresh := fresh }) w := by
  refine Act.meets_get_bind.mpr ?_
  have hfind : (request (.findExecution leg.limId) : Steps K (Leg K) (Option (ExecutionRecord K))).Meets C leg
      (fun _ leg' _ => leg' = leg) w :=
    meets_request_of fun w hr hi => ⟨hfree _ w trivial hi, fun reply w' _ _ _ _ _ => rfl⟩
  refine hfind.bind ?_ fun e leg' w' _ h => ⟨leg.fresh, h⟩
  rintro stored leg' w' hi rfl
  split
  · exact fun _ _ _ => ⟨leg'.fresh, rfl⟩
  · exact fun _ _ _ => ⟨leg'.fresh, rfl⟩
  · have hlook : (request (.reference leg'.target) : Steps K (Leg K) (K × ReferenceSource)).Meets C leg'
        (fun _ leg'' _ => leg'' = leg') w' :=
      meets_request_of fun w hr hi => ⟨hfree _ w trivial hi, fun reply w' _ _ _ _ _ => rfl⟩
    refine hlook.bind ?_ fun e leg'' w'' _ h => ⟨leg'.fresh, h⟩
    rintro fresh leg'' w'' - rfl _ _ _
    exact ⟨some fresh, rfl⟩

/-- Noting an order only adds evidence. -/
theorem note_meets (order : BrokerOrder K) : (Leg.note order).Meets C leg
    (fun _ leg' _ => ∃ fresh records, leg' = { leg with fresh := fresh, records := records }) w := by
  refine (reference_meets hfree).bind ?_ ?_
  · rintro price leg₁ w₁ - ⟨fresh, rfl⟩
    refine Act.meets_get_bind.mpr ?_
    cases record leg.target order price.1 price.2 with
    | error e => exact fun _ _ _ => ⟨fresh, leg.records, rfl⟩
    | ok evidence =>
      refine Act.meets_pure_bind.mpr ?_
      have hwrite : (request (.recordExecutions [evidence]) : Steps K (Leg K) Unit).Meets C { leg with fresh := fresh }
          (fun _ leg' _ => leg' = { leg with fresh := fresh }) w₁ :=
        meets_request_of fun w hr hi => ⟨hfree _ w trivial hi, fun reply w' _ _ _ _ _ => rfl⟩
      refine hwrite.bind ?_ fun e leg' w' _ h => ⟨fresh, leg.records, h⟩
      rintro u leg' w' - rfl _ _ _
      exact ⟨fresh, leg.records ++ [evidence], rfl⟩
  · rintro e leg₁ w₁ - ⟨fresh, rfl⟩
    exact ⟨fresh, leg.records, rfl⟩

theorem resolveReference_meets : (Leg.resolveReference : Steps K (Leg K) Unit).Meets C leg
    (fun _ leg' _ => ∃ fresh price, leg' = { leg with fresh := fresh, price := price }) w := by
  refine (reference_meets hfree).bind ?_ ?_
  · rintro price leg₁ w₁ - ⟨fresh, rfl⟩ _ _ _
    exact ⟨fresh, some price.1, rfl⟩
  · rintro e leg₁ w₁ - ⟨fresh, rfl⟩
    exact ⟨fresh, leg.price, rfl⟩

end Evidence

/-- A name after a step: what the step raised is its error. -/
def Leg.settled (leg : Leg K) : Except ExecError Unit → Leg K
  | .ok () => leg
  | .error e => { leg with error := some e }

/-- Some name has failed. -/
def Book.failed (b : Book) : Bool := !b.errors.isEmpty

/-- Exposure is only stopped after a failure. -/
def Book.Sound (b : Book) : Prop := b.stopExposure = true → b.failed = true

/-- What the phases do to what they share: the switch stays, and failures are not forgotten. -/
structure Book.Grows (b b' : Book) : Prop where
  switch : b'.switch = b.switch
  failed : b.failed = true → b'.failed = true
  sound : b.Sound → b'.Sound

theorem Book.Grows.refl (b : Book) : b.Grows b := ⟨rfl, id, id⟩

theorem Book.Grows.trans (b₁ b₂ b₃ : Book) (h : b₁.Grows b₂) (h' : b₂.Grows b₃) : b₁.Grows b₃ :=
  ⟨h'.switch.trans h.switch, fun he => h'.failed (h.failed he), fun hs => h'.sound (h.sound hs)⟩

/-- The error of a name is among the book's. -/
def Accounted (leg : Leg K) (book : Book) : Prop := leg.error ≠ none → book.failed = true

theorem guarded_meets {step : KillSwitch → Steps K (Leg K) Unit} {leg : Leg K} {book : Book} {Q : Leg K → W → Prop}
    (hQ : ∀ leg, C.Stable (Q leg)) (hacc : Accounted leg book)
    (h : (step book.switch.trigger).Meets C leg (fun x leg' w' => leg'.error = leg.error ∧ Q (leg'.settled x) w') w) :
    (guarded step leg).Meets C book
      (Act.post (fun leg' book' w' => book.Grows book' ∧ Q leg' w' ∧ Accounted leg' book') fun _ _ => False) w := by
  refine Act.meets_get_bind.mpr ((Act.Meets.isolated h).bind ?_ ?_)
  · rintro ⟨x, leg'⟩ b w₁ - ⟨rfl, y, hy, herror, hsettled⟩
    cases hy
    rcases x with e | u
    · have hfailed : Book.failed { b with
          errors := b.errors ++ [e], stopExposure := b.stopExposure || decide (e = .overfill) } = true := by
        simp [Book.failed]
      exact fun w₂ hr hi => ⟨⟨rfl, fun _ => hfailed, fun _ _ => hfailed⟩, hQ _ w₁ w₂ hr hi hsettled, fun _ => hfailed⟩
    · refine fun w₂ hr hi => ⟨.refl b, hQ _ w₁ w₂ hr hi hsettled, fun he => hacc ?_⟩
      rwa [← herror]
  · rintro e b w₁ - ⟨-, y, hy, -⟩
    cases hy

/-! ### Phases -/

section Phases
variable {ι : Type} {P : Switch → W → Prop} {A B : ι → Leg K → Bool → W → Prop}

/-- What is known of a name beside its index, and of the book that it is in. -/
def Named (A : ι → Leg K → Bool → W → Prop) (i : ι) (leg : Leg K) (book : Book) (w : W) : Prop :=
  A i leg book.failed w ∧ Accounted leg book

theorem Named.kept (hA : ∀ i leg b, C.Kept (A i leg b)) (i : ι) (leg : Leg K) (book : Book) : C.Kept (Named A i leg book) where
  stable w w' hr hi h := ⟨(hA i leg book.failed).stable w w' hr hi h.1, h.2⟩
  call c w r w' hi hallowed hans hi' h := ⟨(hA i leg book.failed).call c w r w' hi hallowed hans hi' h.1, h.2⟩

/-- A failure elsewhere only weakens what is known of a name. -/
theorem Named.grows (hA : ∀ i leg w, A i leg false w → A i leg true w) {i : ι} {leg : Leg K} {book book' : Book}
    (hle : book.Grows book') (h : Named A i leg book w) : Named A i leg book' w := by
  refine ⟨?_, fun he => hle.failed (h.2 he)⟩
  have hknown := h.1
  cases hbook : book.failed with
  | true =>
    rw [hbook] at hknown
    rwa [hle.failed hbook]
  | false =>
    rw [hbook] at hknown
    cases book'.failed with
    | true => exact hA i leg w hknown
    | false => exact hknown

/-- What the book goes on with: its switch, and that exposure is only stopped after a failure. -/
def Going (P : Switch → W → Prop) (book : Book) (w : W) : Prop := P book.switch w ∧ book.Sound

theorem Going.stable (hP : ∀ s, C.Stable (P s)) (book : Book) : C.Stable (Going P book) :=
  fun w w' hr hi h => ⟨hP book.switch w w' hr hi h.1, h.2⟩

/-- A phase: what its step makes of one name, it makes of each. -/
theorem phase_meets {concerns : Book → Leg K → Bool} {step : KillSwitch → Steps K (Leg K) Unit}
    (hP : ∀ s, C.Stable (P s)) (hPcall : ∀ s c w r w', BookCall c → C.answers c w r w' → P s w → P s w')
    (huses : ∀ ks, (step ks).Uses BookCall) (hA : ∀ i leg b, C.Kept (A i leg b)) (hB : ∀ i leg b, C.Kept (B i leg b))
    (hAgrows : ∀ i leg w, A i leg false w → A i leg true w) (hBgrows : ∀ i leg w, B i leg false w → B i leg true w)
    (hstep : ∀ i book leg w, C.inv w → P book.switch w → A i leg book.failed w → concerns book leg = true →
      (step book.switch.trigger).Meets C leg
        (fun x leg' w' => leg'.error = leg.error ∧ B i (leg'.settled x) book.failed w') w)
    (hskip : ∀ i book leg w, book.Sound → A i leg book.failed w → concerns book leg = false → B i leg book.failed w)
    {is : List ι} {legs : List (Leg K)} {book : Book} (hw : C.inv w) (hs : Going P book w)
    (hlegs : List.Forall₂ (fun i leg => Named A i leg book w) is legs) :
    (phase concerns step legs).Meets C book (Act.post (fun legs' book' w' => book.Grows book' ∧ Going P book' w' ∧
      List.Forall₂ (fun i leg => Named B i leg book' w') is legs') fun _ _ => False) w := by
  refine Act.Meets.mapM Book.Grows (A := Named A) (B := Named B) (P := Going P) Book.Grows.refl Book.Grows.trans
    (Going.stable hP) (Named.kept hA) (Named.kept hB) (fun i leg b b' w hle h => h.grows hAgrows hle)
    (fun i leg b b' w hle h => h.grows hBgrows hle) ?_ hw hs hlegs
  rintro i leg b w hw hs ⟨ha, hacc⟩
  refine Act.meets_get_bind.mpr ?_
  split
  · next hconcerns =>
    have hguarded := guarded_meets (fun leg => (hB i leg b.failed).stable) hacc (hstep i b leg w hw hs.1 ha hconcerns)
    have huse : (guarded step leg).Uses BookCall := by
      refine Act.uses_get.bind fun b => (Act.Uses.isolated (huses _)).bind fun run => ?_
      rcases run with ⟨e | u, leg'⟩
      · exact Act.uses_modify.bind fun _ => Act.uses_pure
      · exact Act.uses_pure
    refine (huse.frame hguarded (hP b.switch) (hPcall b.switch) hs.1).mono ?_
    rintro (e | leg') b' w' - ⟨hx, hs'⟩
    · exact hx.elim
    · obtain ⟨hle, hb, hacc'⟩ := hx
      -- the name's step was judged by the book it began with, which has only grown since
      have hnamed : Named B i leg' b' w' := by
        cases hfailed : b.failed with
        | true =>
          rw [hfailed] at hb
          refine ⟨?_, hacc'⟩
          rwa [hle.failed hfailed]
        | false =>
          rw [hfailed] at hb
          refine ⟨?_, hacc'⟩
          cases b'.failed with
          | true => exact hBgrows i leg' w' hb
          | false => exact hb
      exact ⟨hle, ⟨hle.switch ▸ hs', hle.sound hs.2⟩, hnamed⟩
  · next hconcerns =>
    intro w' hr hi
    refine ⟨.refl b, Going.stable hP b w w' hr hi hs, (hB i leg b.failed).stable w w' hr hi ?_, hacc⟩
    exact hskip i b leg w hs.2 ha (Bool.eq_false_iff.mpr hconcerns)

end Phases

/-! ### The book -/

/-- The calls of a wait. -/
def Pauses : (desk K).Call → Prop
  | .clock | .sleep _ => True
  | _ => False

theorem bookCall_of_pauses {c : (desk K).Call} (h : Pauses c) : BookCall c := by
  unfold Pauses at h
  split at h
  · trivial
  · trivial
  · cases h

theorem uses_waitOnce (o : Options K) (legs : List (Leg K)) : (waitOnce o legs).Uses Pauses := by
  refine Act.uses_get.bind fun book => ?_
  dsimp only
  split
  · refine (Act.uses_ask trivial).bind fun now => ?_
    split
    · exact Act.uses_ask trivial
    · exact Act.uses_pure
  · exact Act.uses_pure

theorem uses_awaitOne (leg : Leg K) : (awaitOne leg).Uses TendCall := by
  unfold awaitOne
  split
  · exact (uses_request trivial).bind fun _ => Act.uses_pure
  · exact Act.uses_pure

theorem uses_orRaise {σ α : Type} {ok : (desk K).Call → Prop} (x : Except ExecError α) :
    (orRaise x : Steps K σ α).Uses ok := by
  cases x with
  | ok a => exact Act.uses_pure
  | error e => exact Act.uses_throw

theorem uses_reference : (Leg.reference : Steps K (Leg K) _).Uses TendCall := by
  refine Act.uses_get.bind fun leg => (uses_request trivial).bind fun stored => ?_
  split
  · exact Act.uses_pure
  · exact Act.uses_pure
  · exact (uses_request trivial).bind fun _ => Act.uses_modify.bind fun _ => Act.uses_pure

theorem uses_note (order : BrokerOrder K) : (Leg.note order).Uses TendCall :=
  uses_reference.bind fun _ => Act.uses_get.bind fun _ => (uses_orRaise _).bind fun _ =>
    (uses_request trivial).bind fun _ => Act.uses_modify

theorem uses_resolveReference : (Leg.resolveReference : Steps K (Leg K) Unit).Uses TendCall :=
  uses_reference.bind fun _ => Act.uses_modify

section Sends
variable {isLimit : Bool} {ks : KillSwitch}

theorem uses_submitOnce {order : OrderRequest K}
    (h : order.limitPrice.isSome = isLimit ∧ (order.side = .buy → ks.halted = false)) :
    (Leg.submitOnce order).Uses (SendCall isLimit ks) := by
  refine (Act.uses_ask h).bind fun reply => ?_
  split
  · exact Act.uses_pure
  · split
    · refine (uses_request trivial).bind fun found => ?_
      split
      · exact Act.uses_pure
      · exact Act.uses_throw
    · exact Act.uses_throw

/-- A switch that allows a purchase is idle. -/
theorem idle_of_allows {side : OrderSide} (h : ks.allows side = true) (hbuy : side = .buy) : ks.halted = false := by
  rw [KillSwitch.allows, hbuy, Bool.or_eq_true] at h
  rcases h with h | h
  · simpa using h
  · cases of_decide_eq_true h

end Sends

theorem uses_cancelOrder {σ : Type} (id : Label) : (Leg.cancelOrder id : Steps K σ Unit).Uses TendCall := by
  refine (Act.uses_ask trivial).bind fun reply => ?_
  split
  · exact Act.uses_pure
  · exact Act.uses_pure
  · exact Act.uses_throw

theorem uses_cancelLimit : (Leg.cancelLimit : Steps K (Leg K) Unit).Uses TendCall := by
  refine Act.uses_get.bind fun leg => ?_
  split
  · exact Act.uses_pure
  · split
    · exact Act.uses_pure
    · refine (uses_request trivial).bind fun order => Act.uses_modify.bind fun _ => ?_
      split
      · exact Act.uses_pure
      · exact uses_cancelOrder _

theorem uses_guardOverfill {σ : Type} (target : ExecutionTarget K) (filled : K) :
    (Leg.guardOverfill target filled : Steps K σ Unit).Uses TendCall := by
  unfold Leg.guardOverfill
  split
  · exact Act.uses_throw
  · exact Act.uses_pure

theorem uses_submitMarket (ks : KillSwitch) : (Leg.submitMarket ks : Steps K (Leg K) Unit).Uses (SendCall false ks) := by
  refine Act.uses_get.bind fun leg => (uses_request trivial).bind fun found => ?_
  split
  · exact Act.uses_modify
  · split
    · next hallows =>
      refine (uses_submitOnce ⟨rfl, idle_of_allows hallows⟩).bind fun _ => Act.uses_modify.bind fun _ => ?_
      exact (uses_note _).mono fun _ => sendCall_of_tendCall
    · exact Act.uses_modify

theorem uses_closeMarket : (Leg.closeMarket : Steps K (Leg K) Unit).Uses TendCall := by
  refine Act.uses_get.bind fun leg => ?_
  split
  · exact (uses_note _).bind fun _ => uses_guardOverfill _ _
  · exact Act.uses_throw

variable [FloorRing K] {ι : Type}

theorem uses_submitLimit (o : Options K) (ks : KillSwitch) : (Leg.submitLimit o ks).Uses (SendCall true ks) := by
  refine Act.uses_get.bind fun leg => ?_
  split
  · next hallows =>
    split
    · exact Act.uses_throw
    · refine (uses_submitOnce ⟨rfl, idle_of_allows hallows⟩).bind fun _ => Act.uses_modify.bind fun _ => ?_
      exact (uses_note _).mono fun _ => sendCall_of_tendCall
  · exact Act.uses_modify

theorem uses_closeLimit : (Leg.closeLimit : Steps K (Leg K) Unit).Uses TendCall := by
  refine Act.uses_get.bind fun leg => ?_
  split
  · exact Act.uses_pure
  · refine (uses_note _).bind fun _ => ?_
    split
    · refine (uses_guardOverfill _ _).bind fun _ => ?_
      split
      · exact Act.uses_pure
      · exact Act.uses_modify
    · exact Act.uses_throw

/-- What every step of a book keeps: `P` of the switch, and `I n` of each name after the `n`-th phase, told whether some name
    has failed. Something that is raised past the phases leaves `E`. -/
structure BookRules (C : Contract (desk K) W) (o : Options K) (P : Switch → W → Prop)
    (I : Nat → ι → Leg K → Bool → W → Prop) (E : W → Prop) : Prop where
  stable : ∀ s, C.Stable (P s)
  call : ∀ s c w r w', BookCall c → C.answers c w r w' → P s w → P s w'
  kept : ∀ n i leg b, C.Kept (I n i leg b)
  grows : ∀ n i leg w, I n i leg false w → I n i leg true w
  pause : ∀ c w, Pauses c → C.inv w → C.allowed c w
  resolve : ∀ i leg b s w, C.inv w → P s w → I 0 i leg b w → leg.toSubmit = true →
    Leg.resolveReference.Meets C leg (fun x leg' w' => leg'.error = leg.error ∧ I 1 i (leg'.settled x) b w') w
  resolved : ∀ i leg b w, I 0 i leg b w → leg.toSubmit = false → I 1 i leg b w
  submit : ∀ i leg b s w, C.inv w → P s w → I 1 i leg b w → leg.toSubmit = true → leg.error = none →
    (Leg.submitLimit o s.trigger).Meets C leg (fun x leg' w' => leg'.error = leg.error ∧ I 2 i (leg'.settled x) b w') w
  submitted : ∀ i leg b w, I 1 i leg b w → (leg.toSubmit && leg.live) = false → I 2 i leg b w
  cancel : ∀ i leg b s w, C.inv w → P s w → I 2 i leg b w → leg.error = none →
    Leg.cancelLimit.Meets C leg (fun x leg' w' => leg'.error = leg.error ∧ I 3 i (leg'.settled x) b w') w
  canceled : ∀ i leg b w, I 2 i leg b w → leg.live = false → I 3 i leg b w
  close : ∀ i leg b s w, C.inv w → P s w → I 3 i leg b w → leg.error = none →
    Leg.closeLimit.Meets C leg (fun x leg' w' => leg'.error = leg.error ∧ I 4 i (leg'.settled x) b w') w
  closed : ∀ i leg b w, I 3 i leg b w → leg.live = false → I 4 i leg b w
  market : ∀ i leg b s w, C.inv w → P s w → I 4 i leg b w → leg.error = none → leg.residualPending = true →
    (Leg.submitMarket s.trigger).Meets C leg (fun x leg' w' => leg'.error = leg.error ∧ I 5 i (leg'.settled x) b w') w
  marketed : ∀ i leg b w, I 4 i leg b w → (leg.live && leg.residualPending && !b) = false → I 5 i leg b w
  settle : ∀ i leg b s w, C.inv w → P s w → I 5 i leg b w → leg.error = none → leg.mkt.isSome = true →
    Leg.closeMarket.Meets C leg (fun x leg' w' => leg'.error = leg.error ∧ I 6 i (leg'.settled x) b w') w
  settled : ∀ i leg b w, I 5 i leg b w → (leg.live && leg.mkt.isSome) = false → I 6 i leg b w
  wait : ∀ n i leg book w, n = 3 ∨ n = 5 → C.inv w → P book.switch w → I n i leg book.failed w → leg.waiting = true →
    (awaitOne leg).Meets C book
      (Act.post (fun leg' b w' => b = book ∧ leg'.error = leg.error ∧ I n i leg' book.failed w') fun _ => E) w
  estable : C.Stable E

namespace BookRules
variable {o : Options K} {P : Switch → W → Prop} {I : Nat → ι → Leg K → Bool → W → Prop} {E : W → Prop} {is : List ι}
  {legs : List (Leg K)} {book : Book}

/-- The names beside their targets after a phase, their errors among the book's. -/
def Names (I : Nat → ι → Leg K → Bool → W → Prop) (n : Nat) (is : List ι) (legs : List (Leg K)) (book : Book) (w : W) :
    Prop :=
  List.Forall₂ (fun i leg => Named (I n) i leg book w) is legs

/-- What a phase leaves. -/
def Left (P : Switch → W → Prop) (I : Nat → ι → Leg K → Bool → W → Prop) (E : W → Prop) (n : Nat) (is : List ι)
    (book : Book) : Except ExecError (List (Leg K)) → Book → W → Prop :=
  Act.post (fun legs' b w' => book.Grows b ∧ Going P b w' ∧ Names I n is legs' b w') fun _ => E

theorem phase (R : BookRules C o P I E) (concerns : Book → Leg K → Bool)
    (step : KillSwitch → Steps K (Leg K) Unit) {n m : Nat} (huses : ∀ ks, (step ks).Uses BookCall)
    (hstep : ∀ i book leg w, C.inv w → P book.switch w → I n i leg book.failed w → concerns book leg = true →
      (step book.switch.trigger).Meets C leg
        (fun x leg' w' => leg'.error = leg.error ∧ I m i (leg'.settled x) book.failed w') w)
    (hskip : ∀ i book leg w, book.Sound → I n i leg book.failed w → concerns book leg = false → I m i leg book.failed w)
    (hw : C.inv w) (hs : Going P book w) (hlegs : Names I n is legs book w) :
    (Executor.phase concerns step legs).Meets C book (Left P I E m is book) w := by
  refine (phase_meets R.stable R.call huses (R.kept n) (R.kept m) (R.grows n) (R.grows m) hstep hskip hw hs hlegs).mono ?_
  rintro (e | legs') b w' - hx
  · exact hx.elim
  · exact hx

theorem names_kept (R : BookRules C o P I E) (n : Nat) (is : List ι) (legs : List (Leg K)) (book : Book) :
    C.Kept (Names I n is legs book) := Contract.Kept.forall₂ (fun i leg => Named.kept (R.kept n) i leg book) is legs

theorem waitOnce_meets (R : BookRules C o P I E) (legs : List (Leg K)) (book : Book) :
    (Executor.waitOnce o legs).Meets C book (fun x b _ => b = book ∧ x = .ok ()) w := by
  refine Act.meets_get_bind.mpr ?_
  dsimp only
  split
  · refine Act.meets_ask_bind.mpr fun w₁ hr hi => ⟨R.pause _ _ trivial hi, fun now w₂ _ hi₂ => ?_⟩
    split
    · exact fun w₃ hr₃ hi₃ => ⟨R.pause _ _ trivial hi₃, fun u w₄ _ hi₄ w₅ _ _ => ⟨rfl, rfl⟩⟩
    · exact fun w₃ _ _ => ⟨rfl, rfl⟩
  · exact fun w₃ _ _ => ⟨rfl, rfl⟩

theorem waitOnce (R : BookRules C o P I E) (n : Nat) (hs : Going P book w)
    (hlegs : Names I n is legs book w) :
    (Executor.waitOnce o legs).Meets C book
      (Act.post (fun _ b w' => book.Grows b ∧ Going P b w' ∧ Names I n is legs b w') fun _ => E) w := by
  have hpause := (waitOnce_meets R legs book).frame (names_kept R n is legs book) hlegs
  refine (((uses_waitOnce o legs).mono fun _ => bookCall_of_pauses).frame hpause (R.stable book.switch)
    (R.call book.switch) hs.1).mono ?_
  rintro x b w' - ⟨⟨⟨rfl, rfl⟩, hnames⟩, hs'⟩
  exact ⟨.refl b, ⟨hs', hs.2⟩, hnames⟩

/-- One round of reads. -/
theorem round (R : BookRules C o P I E) {n : Nat} (hn : n = 3 ∨ n = 5) (hw : C.inv w) (hs : Going P book w)
    (hlegs : Names I n is legs book w) : (legs.mapM awaitOne).Meets C book (Left P I E n is book) w := by
  refine Act.Meets.mapM Book.Grows (A := Named (I n)) (B := Named (I n)) (P := Going P) Book.Grows.refl Book.Grows.trans
    (Going.stable R.stable) (Named.kept (R.kept n)) (Named.kept (R.kept n))
    (fun i leg b b' w hle h => h.grows (R.grows n) hle) (fun i leg b b' w hle h => h.grows (R.grows n) hle) ?_ hw hs hlegs
  rintro i leg b w hw hs ⟨hi, hacc⟩
  cases hwaiting : leg.waiting with
  | true =>
    refine (((uses_awaitOne leg).mono fun _ => bookCall_of_tendCall).frame (R.wait n i leg b w hn hw hs.1 hi hwaiting) (R.stable b.switch) (R.call b.switch)
      hs.1).mono ?_
    rintro (e | leg') b' w' - ⟨hx, hs'⟩
    · exact hx
    · obtain ⟨rfl, herror, hi'⟩ := hx
      exact ⟨.refl b', ⟨hs', hs.2⟩, hi', fun he => hacc (herror ▸ he)⟩
  | false =>
    have hskip : awaitOne leg = pure leg := by simp [awaitOne, hwaiting]
    rw [hskip]
    intro w' hr hi'
    exact ⟨.refl b, Going.stable R.stable b w w' hr hi' hs, (R.kept n i leg b.failed).stable w w' hr hi' hi, hacc⟩

theorem awaitAll (R : BookRules C o P I E) {n : Nat} (hn : n = 3 ∨ n = 5) (attempts : Nat) (hw : C.inv w)
    (hs : Going P book w) (hlegs : Names I n is legs book w) :
    (Executor.awaitAll o.pollSeconds attempts legs).Meets C book (Left P I E n is book) w := by
  induction attempts generalizing w book legs with
  | zero => exact fun w' hr hi => ⟨.refl book, Going.stable R.stable book w w' hr hi hs,
      (names_kept R n is legs book).stable w w' hr hi hlegs⟩
  | succ attempts ih =>
    refine (round R hn hw hs hlegs).bind ?_ fun _ _ _ _ he => he
    rintro legs' b w₁ hw₁ ⟨hle, hs₁, hlegs₁⟩
    split
    · refine Act.meets_ask_bind.mpr fun w₂ hr hi => ⟨R.pause _ _ trivial hi, fun u w₃ hans hi₃ => ?_⟩
      have hs₂ := R.stable b.switch w₁ w₂ hr hi hs₁.1
      have hlegs₂ := (names_kept R n is legs' b).stable w₁ w₂ hr hi hlegs₁
      have hlegs₃ := (names_kept R n is legs' b).call _ w₂ u w₃ hi (R.pause _ _ trivial hi) hans hi₃ hlegs₂
      refine (ih hi₃ ⟨R.call b.switch _ w₂ u w₃ trivial hans hs₂, hs₁.2⟩ hlegs₃).mono ?_
      rintro (e | legs'') b' w' - hx
      · exact hx
      · exact ⟨Book.Grows.trans book b b' hle hx.1, hx.2⟩
    · exact fun w' hr hi => ⟨hle, Going.stable R.stable b w₁ w' hr hi hs₁,
        (names_kept R n is legs' b).stable w₁ w' hr hi hlegs₁⟩

omit [FloorRing K] in
/-- What follows a phase takes its names on. -/
theorem Left.bind {m : Steps K Book (List (Leg K))} {f : List (Leg K) → Steps K Book (List (Leg K))} {n k : Nat}
    (h : m.Meets C book (Left P I E n is book) w)
    (hf : ∀ legs' b w', C.inv w' → Going P b w' → Names I n is legs' b w' →
      (f legs').Meets C b (Left P I E k is b) w') : (m >>= f).Meets C book (Left P I E k is book) w := by
  refine h.bind ?_ fun _ _ _ _ he => he
  rintro legs' b w' hw ⟨hle, hs, hlegs⟩
  refine (hf legs' b w' hw hs hlegs).mono ?_
  rintro (e | legs'') b' w'' - hx
  · exact hx
  · exact ⟨Book.Grows.trans book b b' hle hx.1, hx.2⟩

theorem limitPhases (R : BookRules C o P I E) (hw : C.inv w) (hs : Going P book w) (hlegs : Names I 0 is legs book w) :
    (Executor.limitPhases o legs).Meets C book (Left P I E 4 is book) w := by
  refine Left.bind (R.phase (fun _ leg => leg.toSubmit) _
    (fun _ => uses_resolveReference.mono fun _ => bookCall_of_tendCall)
    (fun i b leg w hw hs h hc => R.resolve i leg b.failed b.switch w hw hs h hc)
    (fun i b leg w _ h hc => R.resolved i leg b.failed w h hc) hw hs hlegs) fun legs b w hw hs hlegs => ?_
  refine Left.bind (R.phase (fun _ leg => leg.toSubmit && leg.live) _
    (fun ks => (uses_submitLimit o ks).mono fun _ => bookCall_of_sendCall)
    (fun i b leg w hw hs h hc => ?_) (fun i b leg w _ h hc => R.submitted i leg b.failed w h hc) hw hs hlegs)
    fun legs b w hw hs hlegs => ?_
  · obtain ⟨hsubmit, hlive⟩ := Bool.and_eq_true_iff.mp hc
    exact R.submit i leg b.failed b.switch w hw hs h hsubmit (Option.isNone_iff_eq_none.mp hlive)
  refine (R.waitOnce 2 hs hlegs).bind ?_ fun _ _ _ _ he => he
  rintro u b₁ w hw ⟨hle, hs, hlegs⟩
  have hrest : (Executor.phase (fun _ leg => leg.live) (fun _ => Leg.cancelLimit) legs >>= fun legs =>
      Executor.awaitAll o.pollSeconds o.pollAttempts legs >>= fun legs =>
      Executor.phase (fun _ leg => leg.live) (fun _ => Leg.closeLimit) legs).Meets C b₁ (Left P I E 4 is b₁) w := by
    refine Left.bind (R.phase (fun _ leg => leg.live) _
      (fun _ => uses_cancelLimit.mono fun _ => bookCall_of_tendCall)
      (fun i b leg w hw hs h hc => R.cancel i leg b.failed b.switch w hw hs h (Option.isNone_iff_eq_none.mp hc))
      (fun i b leg w _ h hc => R.canceled i leg b.failed w h hc) hw hs hlegs) fun legs b w hw hs hlegs => ?_
    refine Left.bind (R.awaitAll (Or.inl rfl) o.pollAttempts hw hs hlegs) fun legs b w hw hs hlegs => ?_
    exact R.phase (fun _ leg => leg.live) _
      (fun _ => uses_closeLimit.mono fun _ => bookCall_of_tendCall)
      (fun i b leg w hw hs h hc => R.close i leg b.failed b.switch w hw hs h (Option.isNone_iff_eq_none.mp hc))
      (fun i b leg w _ h hc => R.closed i leg b.failed w h hc) hw hs hlegs
  refine hrest.mono ?_
  rintro (e | legs'') b' w'' - hx
  · exact hx
  · exact ⟨Book.Grows.trans b b₁ b' hle hx.1, hx.2⟩

theorem marketPhase (R : BookRules C o P I E) (hw : C.inv w) (hs : Going P book w) (hlegs : Names I 4 is legs book w) :
    (Executor.marketPhase o legs).Meets C book (Left P I E 6 is book) w := by
  refine Left.bind (R.phase (fun book leg => leg.live && leg.residualPending && !book.stopExposure) _
    (fun ks => (uses_submitMarket ks).mono fun _ => bookCall_of_sendCall)
    (fun i b leg w hw hs h hc => ?_) (fun i b leg w hsound h hc => R.marketed i leg b.failed w h ?_) hw hs hlegs)
    fun legs b w hw hs hlegs => ?_
  · simp only [Bool.and_eq_true] at hc
    exact R.market i leg b.failed b.switch w hw hs h (Option.isNone_iff_eq_none.mp hc.1.1) hc.1.2
  · rcases hfailed : b.failed with _ | _
    · have hgoing : b.stopExposure = false := Bool.eq_false_iff.mpr fun hstop => by simp [hsound hstop] at hfailed
      simpa [hgoing] using hc
    · simp
  refine Left.bind (R.awaitAll (Or.inr rfl) o.pollAttempts hw hs hlegs) fun legs b w hw hs hlegs => ?_
  refine R.phase (fun _ leg => leg.live && leg.mkt.isSome) _
    (fun _ => uses_closeMarket.mono fun _ => bookCall_of_tendCall)
    (fun i b leg w hw hs h hc => ?_) (fun i b leg w _ h hc => R.settled i leg b.failed w h hc) hw hs hlegs
  obtain ⟨hlive, hmkt⟩ := Bool.and_eq_true_iff.mp hc
  exact R.settle i leg b.failed b.switch w hw hs h (Option.isNone_iff_eq_none.mp hlive) hmkt

theorem consult_meets {gate : Option (Steps K Switch Unit)} (R : BookRules C o P I E)
    (hgate : ∀ g ∈ gate, ∀ s w, C.inv w → P s w →
      g.Meets C s (Act.post (fun _ s' w' => P s' w') fun _ => E) w) (hw : C.inv w) (hs : Going P book w) :
    (consult gate).Meets C book (Act.post (fun _ b w' => b.failed = book.failed ∧ Going P b w') fun _ => E) w := by
  cases gate with
  | none => exact fun w' hr hi => ⟨rfl, Going.stable R.stable book w w' hr hi hs⟩
  | some g =>
    change Act.Meets C (Act.zoom Book.switch (fun book switch => ({ book with switch := switch } : Book)) g) book _ w
    refine (hgate g rfl book.switch w hw hs.1).zoom ?_
    rintro (e | u) s w' - hx
    · exact hx
    · exact ⟨rfl, hx, hs.2⟩

theorem conclude_meets (R : BookRules C o P I E) (hs : Going P book w) (hlegs : Names I 6 is legs book w)
    (hend : ∀ legs b w, C.inv w → List.Forall₂ (fun i leg => I 6 i leg b w) is legs → E w) :
    (conclude legs).Meets C book (Act.post (fun outcomes b w' => P b.switch w' ∧ ∃ legs,
      List.Forall₂ (fun i leg => I 6 i leg false w' ∧ leg.error = none) is legs ∧ outcomes = legs.map Leg.outcome)
      fun _ => E) w := by
  refine Act.meets_get_bind.mpr ?_
  split
  · next e es herrors =>
    refine fun w' hr hi => hend legs book.failed w' hi ?_
    exact ((names_kept R 6 is legs book).stable w w' hr hi hlegs).imp fun i leg h => h.1
  · next herrors =>
    have hfine : book.failed = false := by simp [Book.failed, herrors]
    refine fun w' hr hi => ⟨R.stable book.switch w w' hr hi hs.1, legs, ?_, rfl⟩
    refine ((names_kept R 6 is legs book).stable w w' hr hi hlegs).imp fun i leg h => ⟨hfine ▸ h.1, ?_⟩
    exact not_not.mp fun he => by simpa [hfine] using h.2 he

theorem begin_meets (R : BookRules C o P I E) {targets : List (ExecutionTarget K)} {J : ι → Leg K → W → Prop}
    (hJ : ∀ i leg, C.Kept (J i leg))
    (htargets : List.Forall₂ (fun i t => ∀ book w, C.inv w → (Leg.init t : Steps K Book (Leg K)).Meets C book
      (Act.post (fun leg b w' => b = book ∧ leg.error = none ∧ J i leg w') fun _ => E) w) is targets)
    (hw : C.inv w) (hs : P book.switch w) :
    (targets.mapM Leg.init : Steps K Book (List (Leg K))).Meets C book (Act.post (fun legs b w' => b = book ∧
      P b.switch w' ∧ List.Forall₂ (fun i leg => J i leg w' ∧ leg.error = none) is legs) fun _ => E) w := by
  have hkept {D : W → Prop} {p : Prop} (hD : C.Kept D) : C.Kept fun w => D w ∧ p :=
    ⟨fun w w' hr hi h => ⟨hD.stable w w' hr hi h.1, h.2⟩,
      fun c w r w' hi ha hans hi' h => ⟨hD.call c w r w' hi ha hans hi' h.1, h.2⟩⟩
  refine Act.Meets.mapM (fun b b' : Book => b' = b) (P := fun b : Book => P b.switch)
    (A := fun i t _ _ => ∀ book w, C.inv w → (Leg.init t : Steps K Book (Leg K)).Meets C book
      (Act.post (fun leg b w' => b = book ∧ leg.error = none ∧ J i leg w') fun _ => E) w)
    (B := fun i leg _ w => J i leg w ∧ leg.error = none) (fun _ => rfl) (fun _ _ _ h h' => h'.trans h)
    (fun b : Book => R.stable b.switch) (fun _ _ _ => ⟨fun _ _ _ _ h => h, fun _ _ _ _ _ _ _ _ h => h⟩)
    (fun i leg _ => hkept (hJ i leg)) (fun _ _ _ _ _ _ h => h) (fun _ _ _ _ _ _ h => h) ?_ hw hs htargets
  rintro i t b w hw hs hinit
  have huse : (Leg.init t : Steps K Book (Leg K)).Uses BookCall := (uses_request trivial).bind fun _ => Act.uses_pure
  refine (huse.frame (hinit b w hw) (R.stable b.switch) (R.call b.switch) hs).mono ?_
  rintro (e | leg) b' w' - ⟨hx, hs'⟩
  · exact hx
  · obtain ⟨rfl, herror, hj⟩ := hx
    exact ⟨rfl, hs', hj, herror⟩

omit [FloorRing K] in
theorem error_openForSubmit (ks : KillSwitch) (leg : Leg K) : (leg.openForSubmit ks).error = leg.error := by
  unfold Leg.openForSubmit
  split
  · rfl
  · split
    · rfl
    · rfl

/-- A book whose names are begun as the rules have them, and whose gate keeps `P`, ends with its outcomes made of names
    that every phase has seen, or raises where `E` holds. -/
theorem bookSteps (R : BookRules C o P I E) {targets : List (ExecutionTarget K)} {J : ι → Leg K → W → Prop}
    {gate : Option (Steps K Switch Unit)} (hJ : ∀ i leg, C.Kept (J i leg))
    (htargets : List.Forall₂ (fun i t => ∀ book w, C.inv w → (Leg.init t : Steps K Book (Leg K)).Meets C book
      (Act.post (fun leg b w' => b = book ∧ leg.error = none ∧ J i leg w') fun _ => E) w) is targets)
    (hopen : ∀ i leg b s w, P s w → J i leg w → I 0 i (leg.openForSubmit s.trigger) b w)
    (hgate : ∀ g ∈ gate, ∀ s w, C.inv w → P s w →
      g.Meets C s (Act.post (fun _ s' w' => P s' w') fun _ => E) w)
    (hrefused : (targets.any fun t => t.qty ≤ 0) = true → E w)
    (hend : ∀ legs b w, C.inv w → List.Forall₂ (fun i leg => I 6 i leg b w) is legs → E w)
    (hw : C.inv w) (hs : Going P book w) :
    (Executor.bookSteps o targets gate).Meets C book (Act.post (fun outcomes b w' => P b.switch w' ∧ ∃ legs,
      List.Forall₂ (fun i leg => I 6 i leg false w' ∧ leg.error = none) is legs ∧ outcomes = legs.map Leg.outcome)
      fun _ => E) w := by
  unfold Executor.bookSteps
  split
  · next hqty => exact R.estable.stays (hrefused hqty)
  · refine (begin_meets R hJ htargets hw hs.1).bind ?_ fun _ _ _ _ he => he
    rintro legs b w hw ⟨rfl, hs₀, hlegs⟩
    have hkeptJ : C.Kept fun w => List.Forall₂ (fun i leg => J i leg w ∧ leg.error = none) is legs :=
      Contract.Kept.forall₂ (fun i leg => ⟨fun w w' hr hi h => ⟨(hJ i leg).stable w w' hr hi h.1, h.2⟩,
        fun c w r w' hi ha hans hi' h => ⟨(hJ i leg).call c w r w' hi ha hans hi' h.1, h.2⟩⟩) is legs
    refine ((consult_meets R hgate hw ⟨hs₀, hs.2⟩).frame hkeptJ hlegs).bind ?_ fun _ _ _ _ he => he.1
    rintro u b₁ w hw ⟨⟨-, hs⟩, hlegs⟩
    refine Act.meets_get_bind.mpr ?_
    have hopened : Names I 0 is (legs.map (Leg.openForSubmit b₁.switch.trigger)) b₁ w := by
      refine List.forall₂_map_right_iff.mpr (hlegs.imp fun i leg h =>
        ⟨hopen i leg b₁.failed b₁.switch w hs.1 h.1, fun he => ?_⟩)
      rw [error_openForSubmit] at he
      exact absurd h.2 he
    refine (R.limitPhases hw hs hopened).bind ?_ fun _ _ _ _ he => he
    rintro legs₂ b₂ w hw ⟨-, hs, hlegs₂⟩
    refine ((consult_meets R hgate hw hs).frame (names_kept R 4 is legs₂ b₂) hlegs₂).bind ?_ fun _ _ _ _ he => he.1
    rintro u b₃ w hw ⟨⟨herrors, hs⟩, hlegs₂⟩
    have hlegs₃ : Names I 4 is legs₂ b₃ w := hlegs₂.imp fun i leg h =>
      ⟨(congrArg (I 4 i leg · w) herrors).mpr h.1, fun he => herrors ▸ h.2 he⟩
    refine (R.marketPhase hw hs hlegs₃).bind ?_ fun _ _ _ _ he => he
    rintro legs₄ b₄ w hw ⟨-, hs, hlegs₄⟩
    exact conclude_meets R hs hlegs₄ hend

/-- `execute_book`, by the same rules. -/
theorem executeBook (R : BookRules C o P I E) {targets : List (ExecutionTarget K)} {J : ι → Leg K → W → Prop}
    {gate : Option (Steps K Switch Unit)} {s : Switch} (hJ : ∀ i leg, C.Kept (J i leg))
    (htargets : List.Forall₂ (fun i t => ∀ book w, C.inv w → (Leg.init t : Steps K Book (Leg K)).Meets C book
      (Act.post (fun leg b w' => b = book ∧ leg.error = none ∧ J i leg w') fun _ => E) w) is targets)
    (hopen : ∀ i leg b s w, P s w → J i leg w → I 0 i (leg.openForSubmit s.trigger) b w)
    (hgate : ∀ g ∈ gate, ∀ s w, C.inv w → P s w →
      g.Meets C s (Act.post (fun _ s' w' => P s' w') fun _ => E) w)
    (hrefused : (targets.any fun t => t.qty ≤ 0) = true → E w)
    (hend : ∀ legs b w, C.inv w → List.Forall₂ (fun i leg => I 6 i leg b w) is legs → E w)
    (hw : C.inv w) (hs : P s w) :
    (Executor.executeBook o targets gate).Meets C s (Act.post (fun outcomes s' w' => P s' w' ∧ ∃ legs,
      List.Forall₂ (fun i leg => I 6 i leg false w' ∧ leg.error = none) is legs ∧ outcomes = legs.map Leg.outcome)
      fun _ => E) w := by
  have hbook : Going P (⟨s, [], false⟩ : Book) w := ⟨hs, nofun⟩
  have hsteps := R.bookSteps hJ htargets hopen hgate hrefused hend hw hbook
  change Act.Meets C (Act.zoom (fun switch => (⟨switch, [], false⟩ : Book)) (fun _ book => book.switch)
    (Executor.bookSteps o targets gate)) s _ w
  refine Act.Meets.zoom hsteps ?_
  rintro (e | outcomes) b w' - hx
  · exact hx
  · exact hx

end BookRules
end Executor
end AsymmetricCommittee
