import AsymmetricCommittee.Lib.Grouping
import AsymmetricCommittee.Contracts.Samples
import AsymmetricCommittee.Lib.Versions
import AsymmetricCommittee.Theorems.PartitionBoundaries

/-! The figures that the history of a company is built from. One fact of each concept and period end is kept whatever its
    duration, so a longer period that ends on the same day can stand in the quarter's place and leave the quarter without
    a figure. -/

namespace AsymmetricCommittee
namespace Partitions
open Renderer

section Figures
variable {K : Type}

def factKey (f : FundamentalFact K) : String × Date := (f.concept.val, f.periodEnd)

/-- The quarterly facts that are knowable. -/
def quarters (facts : List (FundamentalFact K)) (asOf : AwareDatetime) : List (FundamentalFact K) :=
  (visible (·.toFact) asOf facts).filter isQuarterly

/-- The facts that the loop keeps. -/
def latestFacts (facts : List (FundamentalFact K)) (asOf : AwareDatetime) : Dict (String × Date) (FundamentalFact K) :=
  facts.foldl (keepLatest asOf) Dict.empty

/-- The rows of one concept. -/
def conceptRows (latest : Dict (String × Date) (FundamentalFact K)) (concept : String) : Dict Date K :=
  latest.entries.foldl (fun rows kv =>
    if kv.1.1 = concept && isQuarterly kv.2 then rows.set kv.1.2 kv.2.value else rows) Dict.empty

/-- The figure of a concept for the period that ends on a day. -/
def figure (facts : List (FundamentalFact K)) (asOf : AwareDatetime) (concept : String) (periodEnd : Date) : Option K :=
  (conceptRows (latestFacts facts asOf) concept).get? periodEnd

variable {facts facts' : List (FundamentalFact K)} {asOf : AwareDatetime}

/-! ### Which fact the loop keeps -/

end Figures

/-! ### The history -/

section Dicts
variable {κ ν : Type} [BEq κ] [LawfulBEq κ] {d d' : Dict κ ν}

end Dicts

section History
variable {K : Type} {facts facts' : List (FundamentalFact K)} {asOf : AwareDatetime}

variable [Field K] [LinearOrder K]

end History

/-! ### A filing that reports the year with its last quarter -/

end Partitions
end AsymmetricCommittee
