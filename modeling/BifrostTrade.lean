import BifrostTrade.Lib.PiecewiseLinear
import BifrostTrade.Lib.Python
import BifrostTrade.Portfolio.CapitalAtRisk
import BifrostTrade.Portfolio.CoveredShares
import BifrostTrade.Portfolio.OptCalendarProof
import BifrostTrade.Persistence.AccountsSync
import BifrostTrade.Lib.Rollup
import BifrostTrade.Lib.Keyset
import BifrostTrade.Lib.Runs
import BifrostTrade.Portfolio.SnapshotCapture
import BifrostTrade.Portfolio.SnapshotRuns
import BifrostTrade.Portfolio.SnapshotComplete
import BifrostTrade.Portfolio.SnapshotEnrich
import BifrostTrade.Portfolio.SnapshotMarks
import BifrostTrade.Persistence.ExecutionTables
import BifrostTrade.Portfolio.ExecutionWriters
import BifrostTrade.Portfolio.ExecutionWritersProof
import BifrostTrade.Portfolio.WholeOrSplit
import BifrostTrade.Portfolio.SplitSum
import BifrostTrade.Portfolio.TradeSlice
import BifrostTrade.Portfolio.InstanceNetPnl
import BifrostTrade.Portfolio.TradeCalendar
import BifrostTrade.Portfolio.TradeCalendarLaw
import BifrostTrade.Portfolio.PerformanceStats
import BifrostTrade.Portfolio.PerformanceConserved
import BifrostTrade.Portfolio.PerformanceReaders
import BifrostTrade.Portfolio.CashTransactions
import BifrostTrade.Portfolio.FillImport
import BifrostTrade.Portfolio.KeysetPages
import BifrostTrade.Portfolio.PositionAttribution
import BifrostTrade.Portfolio.PositionAttributionKeys
import BifrostTrade.Portfolio.PositionAttributionProof
import BifrostTrade.Lib.Calls
import BifrostTrade.Lib.Stream
import BifrostTrade.Persistence.DaemonRedis
import BifrostTrade.Persistence.RunStatus
import BifrostTrade.Persistence.ControlOnce
import BifrostTrade.Persistence.ControlDelivery
import BifrostTrade.Persistence.ControlAge
import BifrostTrade.Persistence.PositionSync
import BifrostTrade.Persistence.PositionKeys
import BifrostTrade.Portfolio.PnlAttribution
import BifrostTrade.Portfolio.PnlAttributionProof
import BifrostTrade.Lib.Payload
import BifrostTrade.Portfolio.PlanLegs
import BifrostTrade.Portfolio.StrategyPlan
import BifrostTrade.Portfolio.StrategyPlanLaw
import BifrostTrade.Portfolio.InstanceState
import BifrostTrade.Portfolio.InstanceStateProof
import BifrostTrade.Portfolio.ExecutionIds
import BifrostTrade.Portfolio.HedgedProfile
import BifrostTrade.Persistence.DaemonState
import BifrostTrade.Operator.HealthHash
import BifrostTrade.Portfolio.Commissions
import BifrostTrade.Portfolio.PositionCategories
import BifrostTrade.Portfolio.ExecutionDeletes
import BifrostTrade.Core.OnDemand
import BifrostTrade.Core.MessageCenter
import BifrostTrade.Core.OnDemandLive
import BifrostTrade.Core.MessagesKept
import BifrostTrade.Portfolio.FillWriters
import BifrostTrade.Portfolio.FillWritersAgree
import BifrostTrade.Lib.SignChange
import BifrostTrade.Portfolio.Breakevens
import BifrostTrade.Portfolio.MaxRisk
import BifrostTrade.Portfolio.SplitRows
import BifrostTrade.Lib.FirstWins
import BifrostTrade.Portfolio.SnapshotGreeks
import BifrostTrade.Lib.Octets
import BifrostTrade.Lib.IsoTime
import BifrostTrade.Lib.JsonValue
import BifrostTrade.Portfolio.CursorText
import BifrostTrade.Portfolio.CursorTextProof
import BifrostTrade.Lib.Conversions
import BifrostTrade.Portfolio.WriteSupport
import BifrostTrade.Portfolio.WriteSupportLaw
import BifrostTrade.Portfolio.PlanLegsLaw
import BifrostTrade.Lib.DateText
import BifrostTrade.Portfolio.AbstractLegs
import BifrostTrade.Lib.Documents
import BifrostTrade.Lib.Schema
import BifrostTrade.Portfolio.GateSafety
import BifrostTrade.Portfolio.GateSafetyMerge
import BifrostTrade.Portfolio.GateSafetyStored
import BifrostTrade.Portfolio.GateSafetyLaw
import BifrostTrade.Lib.Drawdown
import BifrostTrade.Portfolio.MaxDrawdown
import BifrostTrade.Lib.Blobs
import BifrostTrade.Lib.Uuid
import BifrostTrade.Core.MessageEvents
import BifrostTrade.Core.MessageSurvives
import BifrostTrade.Lib.Dict
import BifrostTrade.Portfolio.OptionStockLinks
import BifrostTrade.Portfolio.OptionStockLinksLaw
import BifrostTrade.Lib.FloatRoundTrip
import BifrostTrade.Portfolio.FallbackKey
import BifrostTrade.Portfolio.FallbackKeyLaw
import BifrostTrade.Core.MessageBoard
import BifrostTrade.Lib.Changes
import BifrostTrade.Core.StatusTracker
import BifrostTrade.Core.ServiceStopped
import BifrostTrade.Lib.JsonRoundTrip
import BifrostTrade.Operator.Protocol
import BifrostTrade.Lib.NormalCdf
import BifrostTrade.Lib.LognormalOption
import BifrostTrade.Pricing.BlackScholes
import BifrostTrade.Pricing.BlackScholesLaw
import BifrostTrade.Pricing.ImpliedVol
import BifrostTrade.Lib.References
import BifrostTrade.Lib.Latch
import BifrostTrade.Strategy.RuleTables
import BifrostTrade.Strategy.RuleDeletes
import BifrostTrade.Strategy.RuleDeletesLaw
import BifrostTrade.Strategy.OpportunityWrite
import BifrostTrade.Strategy.AllocationWrite
import BifrostTrade.Strategy.MembershipLists
import BifrostTrade.Strategy.TradeWrite
import BifrostTrade.Strategy.TradeReview
import BifrostTrade.Strategy.RuleSound
import BifrostTrade.Strategy.WriterEffects
import BifrostTrade.Strategy.RuleRuns
import BifrostTrade.Strategy.RuleRunsLaw
import BifrostTrade.Lib.Rounding
import BifrostTrade.Pricing.StressLaw
import BifrostTrade.Pricing.StressOrder
import BifrostTrade.Pricing.AccountStress
import BifrostTrade.Core.QuoteRelay
import BifrostTrade.Sse.QueueUtils
import BifrostTrade.Pricing.ModelAnalysis
