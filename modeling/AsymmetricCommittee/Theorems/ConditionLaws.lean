import AsymmetricCommittee.Execution.TradeConditions

/-! How the conditions on one trade combine: each code says one thing of its own, and the verdict depends on which
    things are said, not on their order or number. A code more never makes the trade more eligible. -/

namespace AsymmetricCommittee
namespace TradeConditions

/-- What one code says about a trade. -/
inductive Reading where
  | qualifies
  | onlyFirst
  | noteThree
  | unread
  | unvalidated
  | disqualifies
  deriving DecidableEq, Repr

section Codes
variable (tape : Tape) (pmap : ProviderCodeMap)

def reading (code : String) : Reading :=
  match pmap.get? tape code with
  | none => .unread
  | some entry =>
    if entry.validated then
      match (specTable tape).lookup entry.specCode with
      | none | some .tbd => .unread
      | some .no => .disqualifies
      | some .firstOnly => .onlyFirst
      | some .note3 => .noteThree
      | some .yes => .qualifies
    else .unvalidated

/-- The verdict once every code is read. -/
def settle (unknown : Option RefReason) (conditional note3 : Bool) : Eligibility :=
  if unknown.isSome then ⟨.unknown, unknown, false⟩
  else if conditional then ⟨.conditional, none, note3⟩
  else ⟨.eligible, none, false⟩

theorem combine_cons (code : String) (codes : List String) (unknown : Option RefReason) (conditional note3 : Bool) :
    combine tape pmap (code :: codes) unknown conditional note3 =
      match reading tape pmap code with
      | .qualifies => combine tape pmap codes unknown conditional note3
      | .onlyFirst => combine tape pmap codes unknown true note3
      | .noteThree => combine tape pmap codes unknown true true
      | .unread => combine tape pmap codes (worse unknown (some .unknownCondition)) conditional note3
      | .unvalidated => combine tape pmap codes (worse unknown (some .providerMappingUnvalidated)) conditional note3
      | .disqualifies => ⟨.ineligible, none, false⟩ := by
  rw [combine, reading, ProviderCodeMap.translate]
  cases pmap.get? tape code with
  | none => rfl
  | some entry =>
    dsimp only
    cases entry.validated with
    | false => rfl
    | true =>
      simp only [if_true]
      cases (specTable tape).lookup entry.specCode with
      | none => rfl
      | some effect => cases effect <;> rfl

/-- The reason that a list of readings leaves, from the one so far. -/
def unknownOf (unknown : Option RefReason) (readings : List Reading) : Option RefReason :=
  if unknown = some .providerMappingUnvalidated ∨ .unvalidated ∈ readings then some .providerMappingUnvalidated
  else unknown.or (if .unread ∈ readings then some .unknownCondition else none)

theorem unknownOf_nil (unknown : Option RefReason) : unknownOf unknown [] = unknown := by
  unfold unknownOf
  split
  · next h =>
    rcases h with h | h
    · exact h.symm
    · cases h
  · simp

theorem unknownOf_unread (unknown : Option RefReason) (readings : List Reading) :
    unknownOf (worse unknown (some .unknownCondition)) readings = unknownOf unknown (.unread :: readings) := by
  by_cases hu : unknown = some .providerMappingUnvalidated
  · subst hu
    rfl
  · cases unknown with
    | none => simp [worse, unknownOf]
    | some reason => simp_all [worse, unknownOf]

theorem unknownOf_unvalidated (unknown : Option RefReason) (readings : List Reading) :
    unknownOf (worse unknown (some .providerMappingUnvalidated)) readings = unknownOf unknown (.unvalidated :: readings) := by
  by_cases hu : unknown = some .providerMappingUnvalidated
  · subst hu
    simp [worse, unknownOf]
  · simp [worse, unknownOf, hu]

theorem unknownOf_cons {r : Reading} (hr : r ≠ .unread) (hr' : r ≠ .unvalidated) (unknown : Option RefReason)
    (readings : List Reading) : unknownOf unknown (r :: readings) = unknownOf unknown readings := by
  simp [unknownOf, hr.symm, hr'.symm]

/-- The loop depends on what is said by some code, and on its accumulators. -/
theorem combine_eq (codes : List String) (unknown : Option RefReason) (conditional note3 : Bool) :
    combine tape pmap codes unknown conditional note3 =
      let readings := codes.map (reading tape pmap)
      if .disqualifies ∈ readings then ⟨.ineligible, none, false⟩
      else settle (unknownOf unknown readings)
        (conditional || decide (.onlyFirst ∈ readings) || decide (.noteThree ∈ readings))
        (note3 || decide (.noteThree ∈ readings)) := by
  induction codes generalizing unknown conditional note3 with
  | nil => simp [combine, settle, unknownOf_nil]
  | cons code codes ih =>
    rw [combine_cons, List.map_cons]
    cases hr : reading tape pmap code with
    | disqualifies => simp
    | unread => simp [ih, unknownOf_unread]
    | unvalidated => simp [ih, unknownOf_unvalidated]
    | qualifies => simp [ih, unknownOf_cons]
    | onlyFirst => simp [ih, unknownOf_cons]
    | noteThree => simp [ih, unknownOf_cons]

/-- What the verdict depends on. -/
theorem evaluateConditions_eq {codes : List String} (hcodes : codes ≠ []) :
    evaluateConditions tape codes pmap =
      let readings := codes.map (reading tape pmap)
      if .disqualifies ∈ readings then ⟨.ineligible, none, false⟩
      else settle (unknownOf none readings) (decide (.onlyFirst ∈ readings) || decide (.noteThree ∈ readings))
        (decide (.noteThree ∈ readings)) := by
  rw [evaluateConditions, if_neg (by simpa using hcodes), combine_eq]
  simp only [Bool.false_or]

/-- The order from the most eligible to the least. -/
def severity : ConditionEligibility → Nat
  | .eligible => 0
  | .conditional => 1
  | .unknown => 2
  | .ineligible => 3

theorem unknownOf_isSome {readings : List Reading} :
    (unknownOf none readings).isSome ↔ .unvalidated ∈ readings ∨ .unread ∈ readings := by
  unfold unknownOf
  by_cases hv : Reading.unvalidated ∈ readings
  · simp [hv]
  · by_cases hu : Reading.unread ∈ readings
    · simp [hv, hu]
    · simp [hv, hu]

/-- How bad each status is, read off what is said. -/
theorem severity_evaluateConditions {codes : List String} (hcodes : codes ≠ []) :
    severity (evaluateConditions tape codes pmap).status =
      let readings := codes.map (reading tape pmap)
      if .disqualifies ∈ readings then 3
      else if .unvalidated ∈ readings ∨ .unread ∈ readings then 2
      else if .onlyFirst ∈ readings ∨ .noteThree ∈ readings then 1
      else 0 := by
  rw [evaluateConditions_eq tape pmap hcodes]
  dsimp only
  split
  · rfl
  · rw [settle, ← Bool.decide_or]
    simp only [unknownOf_isSome, decide_eq_true_eq]
    split
    · rfl
    · split <;> rfl

/-- The conditions combine whatever their order and however often they are repeated, and a condition more never makes
    the trade more eligible. -/
theorem evaluateConditions_laws :
    (∀ codes codes' : List String, (∀ code, code ∈ codes ↔ code ∈ codes') →
      evaluateConditions tape codes pmap = evaluateConditions tape codes' pmap) ∧
    ∀ codes codes' : List String, codes ≠ [] → codes ⊆ codes' →
      severity (evaluateConditions tape codes pmap).status ≤ severity (evaluateConditions tape codes' pmap).status := by
  constructor
  · intro codes codes' hsame
    cases codes with
    | nil =>
      have hnil : codes' = [] := List.eq_nil_iff_forall_not_mem.mpr fun code hcode => by simpa using (hsame code).mpr hcode
      rw [hnil]
    | cons code rest =>
      have hne : codes' ≠ [] := List.ne_nil_of_mem ((hsame code).mp List.mem_cons_self)
      have hreadings : ∀ r, r ∈ (code :: rest).map (reading tape pmap) ↔ r ∈ codes'.map (reading tape pmap) := by
        intro r
        simp only [List.mem_map, hsame]
      rw [evaluateConditions_eq tape pmap (List.cons_ne_nil _ _), evaluateConditions_eq tape pmap hne]
      simp only [unknownOf, hreadings]
  · intro codes codes' hne hsub
    have hne' : codes' ≠ [] := fun h => hne (List.subset_nil.mp (h ▸ hsub))
    have hreadings : codes.map (reading tape pmap) ⊆ codes'.map (reading tape pmap) := List.map_subset _ hsub
    rw [severity_evaluateConditions tape pmap hne, severity_evaluateConditions tape pmap hne']
    dsimp only
    have h₁ := @hreadings .disqualifies
    have h₂ := @hreadings .unvalidated
    have h₃ := @hreadings .unread
    have h₄ := @hreadings .onlyFirst
    have h₅ := @hreadings .noteThree
    split_ifs <;> first | omega | tauto

end Codes

/-- Two validated codes of tape C. -/
def tapeC : ProviderCodeMap :=
  ⟨[⟨.c, "@", "@", "Regular Sale", "Regular Sale", true⟩, ⟨.c, "Z", "Z", "Sold", "Sold (out of sequence)", true⟩]⟩

theorem evaluateConditions_laws_tapeC :
    evaluateConditions .c ["@", "Z", "@"] tapeC = evaluateConditions .c ["Z", "@"] tapeC ∧
    severity (evaluateConditions .c ["@"] tapeC).status ≤ severity (evaluateConditions .c ["@", "Z"] tapeC).status :=
  ⟨(evaluateConditions_laws .c tapeC).1 _ _ (by simp [or_comm]), (evaluateConditions_laws .c tapeC).2 _ _ (by simp) (by simp)⟩
end TradeConditions
end AsymmetricCommittee
