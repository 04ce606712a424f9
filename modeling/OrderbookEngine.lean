import OrderbookEngine.SortedMap
import OrderbookEngine.LinkedSlots
import OrderbookEngine.StepRuns
import OrderbookEngine.BinaryRounding
import OrderbookEngine.MarketTypes
import OrderbookEngine.PoolBook
import OrderbookEngine.FeedCalls
import OrderbookEngine.ReferenceBook
import OrderbookEngine.ReferenceSteps
import OrderbookEngine.Fills
import OrderbookEngine.LayoutInvariant
import OrderbookEngine.LevelLists
import OrderbookEngine.SlotSteps
import OrderbookEngine.CancelSimulation
import OrderbookEngine.MatchSimulation
import OrderbookEngine.FokSimulation
import OrderbookEngine.EngineSimulation
import OrderbookEngine.RunRules
import OrderbookEngine.Refinement
import OrderbookEngine.BookState
import OrderbookEngine.Additions
import OrderbookEngine.Execution
import OrderbookEngine.Failures
import OrderbookEngine.QuantityRules
import OrderbookEngine.Crossing
import OrderbookEngine.TradePrices
import OrderbookEngine.Priority
import OrderbookEngine.SweepMatch
import OrderbookEngine.FokAgreement
import OrderbookEngine.BulkCancels
import OrderbookEngine.Snapshots
import OrderbookEngine.SnapshotDepth
import OrderbookEngine.HugePools
import OrderbookEngine.Modifications
import OrderbookEngine.PriceRules
import OrderbookEngine.TradeCounts
import OrderbookEngine.FeedCounters
import OrderbookEngine.FeedLatencies
import OrderbookEngine.RealBooks
import OrderbookEngine.LiveViewer
import OrderbookEngine.GreedyWalk
import OrderbookEngine.AllOrNothing
import OrderbookEngine.PriceTimeSweep
import OrderbookEngine.SlotRenaming
import OrderbookEngine.MirrorBook
import OrderbookEngine.MirrorEngine
import OrderbookEngine.MatchProgress
import OrderbookEngine.GreedyAllocation
import OrderbookEngine.BestExecution
import OrderbookEngine.RelabelledBook
import OrderbookEngine.RelabelledRuns
import OrderbookEngine.TradeTape
import OrderbookEngine.OrderObjects
import OrderbookEngine.PoolSizes
import OrderbookEngine.OrderLaws
import OrderbookEngine.RunTotals
import OrderbookEngine.QueuePlaces
import OrderbookEngine.RestoredBook
import OrderbookEngine.RepricedBook
import OrderbookEngine.RepricedRuns
import OrderbookEngine.RoundedOrders
import OrderbookEngine.RelayedDepth
import OrderbookEngine.Workloads
import OrderbookEngine.ChasedOrders
import OrderbookEngine.Reorderings
import OrderbookEngine.Interleavings
