import AsymmetricCommittee.Agents.Cio
import AsymmetricCommittee.Contracts.Samples
import Mathlib.Algebra.BigOperators.Group.List.Basic
import Mathlib.Data.Rat.Floor

/-! What the CIO can do to the book: leave it, or remove the names that one covering reply vetoes. What it removes
    becomes cash. -/

namespace AsymmetricCommittee
namespace Cio

section Vetoes
variable {K : Type} [Field K] [LinearOrder K]

/-- The weight of the names that a decision vetoes. -/
def vetoedWeight (book : ProposedBook K) (out : CioDecisionLLM) : K :=
  grossExposure (book.positions.filter fun p => p.entityToken ∈ vetoed out)

/-- What an answered call costs. -/
def billed (models : ModelsConfig K) (response : ChatResponse K) : K :=
  (((models.modelForResponse response.model).bind fun served => served.callCost response.usage).getD 0)

/-- The book without the names that a decision vetoes, which covers the book and keeps to the budget. -/
structure Approves [FloorRing K] (maxVetoPct : K) (book : ProposedBook K) (out : CioDecisionLLM)
    (approved : ProposedBook K) : Prop where
  covers : ∀ t, t ∈ decidedTokens out ↔ t ∈ bookTokens book
  within : ((vetoed out).length : Int) ≤ ⌊book.positions.length * maxVetoPct + 1e-9⌋
  runId : approved.runId = book.runId
  asOf : approved.asOf = book.asOf
  positions : approved.positions = book.positions.filter fun p => p.entityToken ∉ vetoed out
  removed : approved.positions.length + (vetoed out).length = book.positions.length
  cash : approved.cashWeight = max 0 (1 - grossExposure book.positions + vetoedWeight book out)
  cash_exact : grossExposure book.positions ≤ 1 → approved.cashWeight = book.cashWeight + vetoedWeight book out

/-- What a run of the stage may end with: the book as it was or what the last reply leaves of it, and the sum of what
    the calls cost. -/
structure Outcome [FloorRing K] (env : Setting K) (book : ProposedBook K) (result : Result K) (t : Talk K) : Prop where
  book : result.book = book ∨ ∃ response out, t.answers.getLast? = some response ∧
    env.validate response.content = .decision out ∧ Approves env.maxVetoPct book out result.book
  cost : result.costUsd = (t.answers.map (billed env.models)).sum

variable {env : Setting K} {book approved : ProposedBook K} {out : CioDecisionLLM} {result : Result K} {t t' : Talk K}

/-! ### One decision -/

theorem covers_of_checkCoverage (h : checkCoverage book out = .ok ()) (t : EntityToken) :
    t ∈ decidedTokens out ↔ t ∈ bookTokens book := by
  rw [checkCoverage] at h
  split at h
  · next hnil =>
    obtain ⟨hmissing, hunknown⟩ := hnil
    rw [List.filter_eq_nil_iff] at hmissing hunknown
    constructor
    · intro ht
      simpa using hunknown t ht
    · intro ht
      simpa using hmissing t ht
  · cases h

/-- A vetoed name is a name of the book, so as many positions go as names are vetoed. -/
theorem length_vetoed (hcovers : ∀ t, t ∈ decidedTokens out ↔ t ∈ bookTokens book) :
    (book.positions.filter fun p => p.entityToken ∈ vetoed out).length = (vetoed out).length := by
  have hsub : (vetoed out).Sublist (decidedTokens out) := List.filter_sublist.map _
  have hnodup : ((book.positions.filter fun p => p.entityToken ∈ vetoed out).map (·.entityToken)).Nodup :=
    book.tokens_unique.sublist (List.filter_sublist.map _)
  have hperm : ((book.positions.filter fun p => p.entityToken ∈ vetoed out).map (·.entityToken)).Perm (vetoed out) := by
    rw [List.perm_ext_iff_of_nodup hnodup (out.unique_names.sublist hsub)]
    intro t
    constructor
    · intro ht
      obtain ⟨p, hp, rfl⟩ := List.mem_map.mp ht
      simpa using (List.mem_filter.mp hp).2
    · intro ht
      obtain ⟨p, hp, rfl⟩ := List.mem_map.mp ((hcovers t).mp (hsub.subset ht))
      exact List.mem_map_of_mem (List.mem_filter.mpr ⟨hp, by simpa using ht⟩)
  rw [← hperm.length_eq, List.length_map]

/-- What is kept and what is vetoed add up to the book. -/
theorem grossExposure_split (positions : List (ProposedPosition K)) (f : ProposedPosition K → Bool) :
    grossExposure (positions.filter f) + grossExposure (positions.filter fun p => !f p) = grossExposure positions := by
  have hperm := (List.filter_append_perm f positions).map fun p => p.targetWeight.val
  rw [grossExposure, grossExposure, grossExposure, ← hperm.sum_eq, List.map_append, List.sum_append]

theorem make_ok {positions : List (ProposedPosition K)} (h : ProposedBook.make book.runId book.asOf positions = .ok approved) :
    approved.runId = book.runId ∧ approved.asOf = book.asOf ∧ approved.positions = positions := by
  rw [ProposedBook.make] at h
  split at h
  · split at h
    · cases h
      exact ⟨rfl, rfl, rfl⟩
    · cases h
  · cases h

variable [IsStrictOrderedRing K]

theorem vetoedWeight_nonneg : 0 ≤ vetoedWeight book out := by
  refine List.sum_nonneg fun w hw => ?_
  obtain ⟨p, -, rfl⟩ := List.mem_map.mp hw
  exact p.targetWeight.2.1

variable [FloorRing K]

theorem approves_of_apply {maxVetoPct : K} (h : applyCioDecision book out maxVetoPct = .ok approved) :
    Approves maxVetoPct book out approved := by
  rw [applyCioDecision] at h
  cases hcheck : checkCoverage book out with
  | error e =>
    rw [hcheck] at h
    cases h
  | ok u =>
    have hcovers := covers_of_checkCoverage hcheck
    simp only [hcheck] at h
    split at h
    · cases h
    · next hlimit =>
      split at h
      · cases h
      · next made hmake =>
        obtain rfl := Except.ok.inj h
        obtain ⟨hrun, hasOf, hpositions⟩ := make_ok hmake
        have hsplit := grossExposure_split book.positions fun p => decide (p.entityToken ∉ vetoed out)
        have hvetoed : (book.positions.filter fun p => !decide (p.entityToken ∉ vetoed out)) =
            book.positions.filter fun p => p.entityToken ∈ vetoed out :=
          List.filter_congr fun p _ => by simp
        rw [hvetoed, ← hpositions] at hsplit
        have hcash : made.cashWeight = max 0 (1 - grossExposure book.positions + vetoedWeight book out) := by
          rw [ProposedBook.cashWeight, ← hsplit, vetoedWeight]
          congr 1
          ring
        refine ⟨hcovers, not_lt.mp hlimit, hrun, hasOf, hpositions, ?_, hcash, fun hgross => ?_⟩
        · have hperm := (List.filter_append_perm (fun p => decide (p.entityToken ∉ vetoed out)) book.positions).length_eq
          rw [List.length_append, hvetoed, length_vetoed hcovers, ← hpositions] at hperm
          exact hperm
        · have hres : 0 ≤ 1 - grossExposure book.positions := sub_nonneg.mpr hgross
          rw [hcash, ProposedBook.cashWeight, max_eq_right hres, max_eq_right (add_nonneg hres vetoedWeight_nonneg)]

/-! ### The attempts -/

/-- What the calls so far cost is the sum. -/
def Talk.Summed (models : ModelsConfig K) (t : Talk K) : Prop := t.cost = (t.answers.map (billed models)).sum

omit [IsStrictOrderedRing K] in
theorem outcome_decided {served : ServedModel K} {next : ProposedBook K} {alert : Option (Nat × Int)}
    (hsum : t.Summed env.models) (h : decided env book out served next alert t.cost = .ok result)
    (hnext : next = book ∨ ∃ response out, t.answers.getLast? = some response ∧
      env.validate response.content = .decision out ∧ Approves env.maxVetoPct book out next) :
    Outcome env book result t := by
  rw [decided] at h
  split at h
  · cases h
  · obtain rfl := Except.ok.inj h
    exact ⟨hnext, hsum⟩

/-- A reply that is read ends the stage or leads to the next attempt, with the calls as they are. -/
theorem judge_cases {served : ServedModel K} {response : ChatResponse K}
    {retry : Talk K → Except CioError (Result K) × Talk K} (hlast : t.answers.getLast? = some response)
    (hsum : t.Summed env.models) (h : judge env book served response.content t retry = (.ok result, t')) :
    (Outcome env book result t' ∧ t'.calls = t.calls) ∨ ∃ problem, retry (t.reject response.content problem) = (.ok result, t') := by
  rw [judge] at h
  cases hparsed : env.validate response.content with
  | failed => simp [hparsed] at h
  | refused problem =>
    rw [hparsed] at h
    exact Or.inr ⟨problem, h⟩
  | decision out =>
    simp only [hparsed] at h
    cases happly : applyCioDecision book out env.maxVetoPct with
    | ok approved =>
      simp only [happly] at h
      obtain ⟨hdecided, rfl⟩ := Prod.mk.inj h
      exact Or.inl ⟨outcome_decided hsum hdecided (Or.inr ⟨response, out, hlast, hparsed, approves_of_apply happly⟩), rfl⟩
    | error e =>
      cases e with
      | miscalibration vetoes limit =>
        simp only [happly] at h
        obtain ⟨hdecided, rfl⟩ := Prod.mk.inj h
        have hout : Outcome env book result t := outcome_decided hsum hdecided (Or.inl rfl)
        exact Or.inl ⟨⟨hout.book, hout.cost⟩, rfl⟩
      | coverage missing unknown =>
        simp only [happly] at h
        exact Or.inr ⟨_, h⟩
      | invalid e =>
        simp only [happly] at h
        exact Or.inr ⟨_, h⟩

/-- The attempts end with an outcome, after at most as many calls. -/
theorem attempts_outcome (n : Nat) (t : Talk K) (hsum : t.Summed env.models)
    (h : attempts env book n t = (.ok result, t')) : Outcome env book result t' ∧ t'.calls ≤ t.calls + n := by
  induction n generalizing t with
  | zero =>
    obtain ⟨hres, rfl⟩ := Prod.mk.inj h
    obtain rfl := Except.ok.inj hres
    exact ⟨⟨Or.inl rfl, hsum⟩, le_rfl⟩
  | succ n ih =>
    rw [attempts] at h
    split at h
    · cases (Prod.mk.inj h).1
    · split at h
      · obtain ⟨hres, rfl⟩ := Prod.mk.inj h
        obtain rfl := Except.ok.inj hres
        exact ⟨⟨Or.inl rfl, hsum⟩, Nat.add_le_add_left (Nat.le_add_left 1 n) _⟩
      · cases (Prod.mk.inj h).1
      · next response _ =>
        cases hserved : env.models.modelForResponse response.model with
        | none =>
          simp only [hserved] at h
          cases (Prod.mk.inj h).1
        | some served =>
          simp only [hserved] at h
          split at h
          · cases (Prod.mk.inj h).1
          · cases husd : served.callCost response.usage with
            | none =>
              simp only [husd] at h
              cases (Prod.mk.inj h).1
            | some usd =>
              simp only [husd] at h
              split at h
              · cases (Prod.mk.inj h).1
              · have hbill : billed env.models response = usd := by
                  rw [billed, hserved, Option.bind_some, husd, Option.getD_some]
                have hsum' : ((t.answered response).charge usd).Summed env.models := by
                  change t.cost + usd = ((t.answers ++ [response]).map (billed env.models)).sum
                  rw [List.map_append, List.sum_append, ← hsum, List.map_singleton, List.sum_singleton, hbill]
                rcases judge_cases (List.getLast?_concat) hsum' h with ⟨hout, hcalls⟩ | ⟨problem, hretry⟩
                · refine ⟨hout, hcalls.trans_le ?_⟩
                  exact Nat.add_le_add_left (Nat.le_add_left 1 n) _
                · have hreject : (((t.answered response).charge usd).reject response.content problem).Summed env.models := hsum'
                  obtain ⟨hout, hcalls⟩ := ih _ hreject hretry
                  exact ⟨hout, hcalls.trans_eq (by change t.calls + 1 + n = _; omega)⟩

/-- Whenever the stage returns, its book is the proposed book or what a covering reply within the budget leaves of it,
    after at most two calls, whose cost it reports. -/
theorem runCio_only_removes {budget : Option (RunBudget K)} (h : runCio env book budget = (.ok result, t)) :
    Outcome env book result t ∧ t.calls ≤ 2 := by
  rw [runCio] at h
  split at h
  · obtain ⟨hres, rfl⟩ := Prod.mk.inj h
    obtain rfl := Except.ok.inj hres
    exact ⟨⟨Or.inl rfl, rfl⟩, Nat.zero_le 2⟩
  · refine attempts_outcome 2 _ ?_ h
    rfl

end Vetoes

/-! ### A book of thirteen names -/

def oneModel : ServedModel ℚ := ⟨"m", ⟨1, Samples.nonNegative_one ℚ⟩, ⟨1, Samples.nonNegative_one ℚ⟩, by decide⟩

def oneEntry : ModelEntry ℚ := ⟨oneModel, [], by simp⟩

/-- One model in every tier. -/
def oneModels : ModelsConfig ℚ where
  tiers := ((Dict.empty.set ModelTier.fast oneEntry).set .strong oneEntry).set .probe oneEntry
  complete := by rintro (_ | _ | _) <;> rfl
  one_model := by
    have hvalues : (((Dict.empty.set ModelTier.fast oneEntry).set .strong oneEntry).set .probe oneEntry).values =
        [oneEntry, oneEntry, oneEntry] := rfl
    have hentry : ∀ e ∈ [oneEntry, oneEntry, oneEntry], ∀ m ∈ e.models, m = oneModel := by
      simp [oneEntry, ModelEntry.models]
    rw [hvalues]
    intro e he e' he' m hm m' hm' _
    rw [hentry e he m hm, hentry e' he' m' hm']
  probe_production := fun e he slug hslug => ⟨.fast, Or.inl rfl, e, he, hslug⟩

/-- The token of a number. -/
def tokenOf (i : Fin 13) : EntityToken :=
  ⟨"TICKER_" ++ toString (10 + i.val), by revert i; decide⟩

theorem tokenOf_injective : Function.Injective tokenOf := by decide

def positionOf (weight : Fin 13 → Weight ℚ) (i : Fin 13) : ProposedPosition ℚ :=
  ⟨⟨1 + i.val, by omega⟩, tokenOf i, ⟨"Energy", by decide⟩, ⟨0.6, by norm_num⟩, weight i⟩

/-- Twelve names at the cap, and one that fills the book up to the tolerance. -/
def fullWeight (i : Fin 13) : Weight ℚ :=
  if i = 0 then ⟨0.0400000005, by norm_num [maxPositionCap]⟩ else ⟨0.08, by norm_num [maxPositionCap]⟩

def threeNames : ProposedBook ℚ :=
  ⟨⟨1⟩, ⟨0, 0⟩, ((List.finRange 13).take 3).map (positionOf fullWeight), by decide, by decide,
    by decide +kernel⟩

def fullBook : ProposedBook ℚ :=
  ⟨⟨1⟩, ⟨0, 0⟩, (List.finRange 13).map (positionOf fullWeight), by decide +kernel, by decide +kernel, by decide +kernel⟩

/-- A reply that vetoes the last of the first `n` names. -/
def lastVetoed (n : Nat) : CioDecisionLLM where
  decisions := ((List.finRange 13).take n).map fun i =>
    ⟨tokenOf i, if i.val + 1 = n then .veto else .approve, "bear case", by decide, fun _ => by decide⟩
  rationale := ⟨"reviewed", by decide⟩
  unique_names := by
    rw [List.map_map]
    exact ((List.nodup_finRange 13).sublist (List.take_sublist n _)).map fun _ _ h => tokenOf_injective h

def oneSetting (n : Nat) (maxVetoPct : ℚ) : Setting ℚ where
  client := fun _ => .ok ⟨"m", "reply", some ⟨some 1000, some 200, none⟩⟩
  validate := fun _ => .decision (lastVetoed n)
  models := oneModels
  system := ""
  promptVersion := ⟨"cio-1", by decide⟩
  maxVetoPct := maxVetoPct
  redTeam := fun _ => none
  format3f := fun _ => ""

/-- The last of the thirteen names is removed. -/
theorem runCio_only_removes_last :
    match runCio (oneSetting 13 0.2) fullBook none with
    | (.ok result, t) => Outcome (oneSetting 13 0.2) fullBook result t ∧ t.calls ≤ 2
    | _ => False := by
  have hok : (runCio (oneSetting 13 0.2) fullBook none).1.isOk = true := by decide +kernel
  rcases hrun : runCio (oneSetting 13 0.2) fullBook none with ⟨_ | result, t⟩
  · rw [hrun] at hok
    cases hok
  · exact runCio_only_removes hrun

/-- Just below a third, one of three names goes where the floor allows none; and where the book is above one within the
    tolerance, cash rises by less than the weight that goes. -/
theorem runCio_over_floor :
    ((runCio (oneSetting 3 0.3333333333) threeNames none).1.toOption.map fun r => r.book.positions.length) = some 2 ∧
    ⌊(threeNames.positions.length : ℚ) * 0.3333333333⌋ = 0 ∧
    ((runCio (oneSetting 13 0.2) fullBook none).1.toOption.map fun r => r.book.cashWeight) ≠
      some (fullBook.cashWeight + vetoedWeight fullBook (lastVetoed 13)) := by
  decide +kernel

end Cio
end AsymmetricCommittee
