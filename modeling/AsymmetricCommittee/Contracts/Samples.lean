import AsymmetricCommittee.Contracts.Data

/-! The texts and numbers that examples are made of satisfy the constraints of the fields they stand in. -/

namespace AsymmetricCommittee
namespace Samples

/-! ### Numbers -/

theorem one_securityId : (1 : Int) ≤ 1 := le_rfl

theorem two_securityId : (1 : Int) ≤ 2 := by decide

theorem succ_securityId (n : Nat) : (1 : Int) ≤ n + 1 := by omega

theorem eight_pos : 1 ≤ 8 := by decide

section Numbers
variable (K : Type*) [Field K] [LinearOrder K] [IsStrictOrderedRing K]

theorem nonNegative_one : (0 : K) ≤ 1 := zero_le_one

theorem probability_one : (0 : K) ≤ 1 ∧ (1 : K) ≤ 1 := ⟨zero_le_one, le_rfl⟩

theorem one_positive : (0 : K) < 1 := one_pos

theorem ten_positive : (0 : K) < 10 := by norm_num

theorem hundred_positive : (0 : K) < 100 := by norm_num

end Numbers

theorem empty_gross : grossExposure ([] : List (ProposedPosition ℚ)) ≤ 1 + 1e-9 := by
  norm_num [grossExposure]

/-! ### Instants -/

theorem opens_first : (⟨0, 0⟩ : AwareDatetime).instant < (⟨1, 0⟩ : AwareDatetime).instant := by decide

theorem known_then : (⟨0, 0⟩ : AwareDatetime).instant = (⟨0, 0⟩ : AwareDatetime).instant := rfl

/-! ### Texts -/

theorem label_zero : 1 ≤ "0".length ∧ "0".length ≤ 128 := by decide

theorem label_a : 1 ≤ "a".length ∧ "a".length ≤ 128 := by decide

theorem label_v : 1 ≤ "v".length ∧ "v".length ≤ 128 := by decide

theorem label_v1 : 1 ≤ "v1".length ∧ "v1".length ≤ 128 := by decide

theorem label_n1 : 1 ≤ "n1".length ∧ "n1".length ≤ 128 := by decide

theorem label_aaa : 1 ≤ "AAA".length ∧ "AAA".length ≤ 128 := by decide

theorem label_b1 : 1 ≤ "B1".length ∧ "B1".length ≤ 128 := by decide

theorem label_b2 : 1 ≤ "B2".length ∧ "B2".length ≤ 128 := by decide

theorem label_calendar : 1 ≤ "alpaca_calendar".length ∧ "alpaca_calendar".length ≤ 128 := by decide

theorem label_filing : 1 ≤ "0000000001-25-000001".length ∧ "0000000001-25-000001".length ≤ 128 := by decide

theorem label_limit : 1 ≤ "00000000-0000-0000-0000-000000000001-1-lim".length ∧
    "00000000-0000-0000-0000-000000000001-1-lim".length ≤ 128 := by decide

theorem unit_usd : 1 ≤ "USD".length ∧ "USD".length ≤ 32 := by decide

theorem code_at : 1 ≤ "@".length ∧ "@".length ≤ 2 := by decide

theorem concept_revenues : isConcept "us-gaap:Revenues" = true := by decide

theorem token_eleven : isEntityToken "TICKER_11" = true := by decide

theorem sha256_zeros : isSha256Hex "0000000000000000000000000000000000000000000000000000000000000000" = true := by decide

theorem sha256_empty : isSha256Hex "e3b0c44298fc1c149afbf4c8996fb92427ae41e4649b934ca495991b7852b855" = true := by decide

theorem headline_h : 1 ≤ "h".length ∧ "h".length ≤ 1000 := by decide

theorem summary_empty : "".length ≤ 20000 := by decide

theorem publisher_empty : "".length ≤ 256 := by decide

theorem url_empty : "".length ≤ 2048 := by decide

/-! ### Members -/

theorem value_votes : AgentName.value ∈ votingAgents := by decide

theorem technical_votes : AgentName.technical ∈ votingAgents := by decide

end Samples
end AsymmetricCommittee
