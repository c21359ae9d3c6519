import AsymmetricCommittee.Agents.AgentCall
import AsymmetricCommittee.Agents.Cio
import AsymmetricCommittee.Agents.Partitioner
import AsymmetricCommittee.Agents.Partitions
import AsymmetricCommittee.Agents.Patterns
import AsymmetricCommittee.Agents.QuantBaseline
import AsymmetricCommittee.Agents.RateLimit
import AsymmetricCommittee.Agents.Runner
import AsymmetricCommittee.Agents.VerdictCache
import AsymmetricCommittee.Committee.Pooling
import AsymmetricCommittee.Config.Loader
import AsymmetricCommittee.Contracts.Commitment
import AsymmetricCommittee.Contracts.Data
import AsymmetricCommittee.Contracts.MarketData
import AsymmetricCommittee.Contracts.Records
import AsymmetricCommittee.Evaluation.Anchoring
import AsymmetricCommittee.Evaluation.CalendarRules
import AsymmetricCommittee.Evaluation.Scorable
import AsymmetricCommittee.Evaluation.Sequential
import AsymmetricCommittee.Evaluation.TBillRules
import AsymmetricCommittee.Evaluation.Walkforward
import AsymmetricCommittee.Execution.Brokerage
import AsymmetricCommittee.Execution.Executor
import AsymmetricCommittee.Execution.Gateway
import AsymmetricCommittee.Execution.Halt
import AsymmetricCommittee.Execution.ReferenceRules
import AsymmetricCommittee.Execution.Traces
import AsymmetricCommittee.Features.Builder
import AsymmetricCommittee.Features.Renderer
import AsymmetricCommittee.Gate.Model
import AsymmetricCommittee.Ingest.EdgarClient
import AsymmetricCommittee.Ingest.ReferenceData
import AsymmetricCommittee.Lib.Checks
import AsymmetricCommittee.Lib.Dict
import AsymmetricCommittee.Lib.Except
import AsymmetricCommittee.Lib.FiniteProcess
import AsymmetricCommittee.Lib.IsoTime
import AsymmetricCommittee.Lib.Json
import AsymmetricCommittee.Lib.KeyedTable
import AsymmetricCommittee.Lib.Metering
import AsymmetricCommittee.Lib.Program
import AsymmetricCommittee.Lib.Ranking
import AsymmetricCommittee.Lib.TextLines
import AsymmetricCommittee.Lib.TextWords
import AsymmetricCommittee.Lib.Traces
import AsymmetricCommittee.Lib.Versions
import AsymmetricCommittee.Orchestration.AnchorRepo
import AsymmetricCommittee.Orchestration.AnchorStage
import AsymmetricCommittee.Orchestration.ExecutionStage
import AsymmetricCommittee.Orchestration.OrderEvidence
import AsymmetricCommittee.Orchestration.Pipeline
import AsymmetricCommittee.Orchestration.References
import AsymmetricCommittee.Orchestration.Sink
import AsymmetricCommittee.Risk.Sizing
import AsymmetricCommittee.Store.Aliases
import AsymmetricCommittee.Store.AsOf
import AsymmetricCommittee.Store.Claims
import AsymmetricCommittee.Store.Immutable
import AsymmetricCommittee.Store.ImmutableRows
import AsymmetricCommittee.Store.Material
import AsymmetricCommittee.Store.Runs
import AsymmetricCommittee.Theorems.AliasMatches
import AsymmetricCommittee.Theorems.AnchorManifests
import AsymmetricCommittee.Theorems.AnchorRetries
import AsymmetricCommittee.Theorems.AnytimeValid
import AsymmetricCommittee.Theorems.BaselineBook
import AsymmetricCommittee.Theorems.BatchAccounting
import AsymmetricCommittee.Theorems.BatchRuns
import AsymmetricCommittee.Theorems.BearWeights
import AsymmetricCommittee.Theorems.BettingMoments
import AsymmetricCommittee.Theorems.BettingProcess
import AsymmetricCommittee.Theorems.BookOrders
import AsymmetricCommittee.Theorems.BookPhases
import AsymmetricCommittee.Theorems.BudgetCeiling
import AsymmetricCommittee.Theorems.CachedVerdicts
import AsymmetricCommittee.Theorems.CalendarArithmetic
import AsymmetricCommittee.Theorems.CalendarCovered
import AsymmetricCommittee.Theorems.CalendarFollows
import AsymmetricCommittee.Theorems.CalendarOutages
import AsymmetricCommittee.Theorems.CalendarView
import AsymmetricCommittee.Theorems.CanonicalCommitment
import AsymmetricCommittee.Theorems.CioVetoes
import AsymmetricCommittee.Theorems.CommitmentEncoding
import AsymmetricCommittee.Theorems.CommitmentRows
import AsymmetricCommittee.Theorems.CommittedMaterial
import AsymmetricCommittee.Theorems.ConditionLaws
import AsymmetricCommittee.Theorems.ConfirmedProofs
import AsymmetricCommittee.Theorems.DoubleOrders
import AsymmetricCommittee.Theorems.EffectiveAgents
import AsymmetricCommittee.Theorems.EvidenceIds
import AsymmetricCommittee.Theorems.EvidenceRows
import AsymmetricCommittee.Theorems.ExecutionGate
import AsymmetricCommittee.Theorems.FeatureSeries
import AsymmetricCommittee.Theorems.FeedFreshness
import AsymmetricCommittee.Theorems.FlooredWeights
import AsymmetricCommittee.Theorems.GateDecisions
import AsymmetricCommittee.Theorems.HaltActions
import AsymmetricCommittee.Theorems.HaltReconstruction
import AsymmetricCommittee.Theorems.HaltRecords
import AsymmetricCommittee.Theorems.HaltSteps
import AsymmetricCommittee.Theorems.HaltTriggers
import AsymmetricCommittee.Theorems.HaltedBuys
import AsymmetricCommittee.Theorems.HaltedRuns
import AsymmetricCommittee.Theorems.ImmutableTables
import AsymmetricCommittee.Theorems.InsiderSignals
import AsymmetricCommittee.Theorems.LongNumbers
import AsymmetricCommittee.Theorems.LongRunVariance
import AsymmetricCommittee.Theorems.OrderStates
import AsymmetricCommittee.Theorems.PageWalks
import AsymmetricCommittee.Theorems.PartitionBoundaries
import AsymmetricCommittee.Theorems.PersonMasks
import AsymmetricCommittee.Theorems.PlannedBook
import AsymmetricCommittee.Theorems.PooledVerdicts
import AsymmetricCommittee.Theorems.PoolingLaws
import AsymmetricCommittee.Theorems.ProofUpgrades
import AsymmetricCommittee.Theorems.QuarterlyHistory
import AsymmetricCommittee.Theorems.RateLimits
import AsymmetricCommittee.Theorems.RedTeamCover
import AsymmetricCommittee.Theorems.ReferenceClock
import AsymmetricCommittee.Theorems.ReferencePrice
import AsymmetricCommittee.Theorems.ReportedStatus
import AsymmetricCommittee.Theorems.RunSlots
import AsymmetricCommittee.Theorems.RunStatus
import AsymmetricCommittee.Theorems.RunStore
import AsymmetricCommittee.Theorems.ScoringAdmission
import AsymmetricCommittee.Theorems.SectorRanges
import AsymmetricCommittee.Theorems.SectorRanks
import AsymmetricCommittee.Theorems.SequentialRule
import AsymmetricCommittee.Theorems.SizingLimits
import AsymmetricCommittee.Theorems.StackerFit
import AsymmetricCommittee.Theorems.TBillRates
import AsymmetricCommittee.Theorems.TrainingLeak
import AsymmetricCommittee.Theorems.VersionsInForce
import AsymmetricCommittee.Theorems.WalkforwardDates
import AsymmetricCommittee.Contracts.ReferenceRows
import AsymmetricCommittee.Execution.Reference
import AsymmetricCommittee.Orchestration.ReferenceCapture
import AsymmetricCommittee.Store.ReferenceRows
import AsymmetricCommittee.Theorems.LiveReferences
import AsymmetricCommittee.Theorems.ReferenceIsolation
