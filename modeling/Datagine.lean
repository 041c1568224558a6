import Datagine.Lib.KeyedList
import Datagine.Lib.LinkedChain
import Datagine.Lib.Mealy
import Datagine.Lib.SequenceCounter
import Datagine.Lib.SortedMap
import Datagine.Lib.Text
import Datagine.LevelViews
import Datagine.Levels
import Datagine.LimitOrderBook
import Datagine.LimitOrderBookRefines
import Datagine.PooledLimitOrderBook
import Datagine.PooledLimitOrderBookRefines
import Datagine.PooledLimitOrderBookViews
import Datagine.BookRuns
import Datagine.PooledRuns
import Datagine.AggregateQuantity
import Datagine.SpscRingBuffer
import Datagine.CsvParser
import Datagine.CsvGrammar
import Datagine.CsvStream
import Datagine.AnomalyDetector
import Datagine.PriceTime
import Datagine.Types
import Datagine.ReplayEngine
import Datagine.ReplayRuns
import Datagine.RejectedLines
import Datagine.ReplayAccounting
import Datagine.Rulings
import Datagine.SnapshotState
import Datagine.Noninterference
import Datagine.Lib.Reordering
import Datagine.Reordering
import Datagine.QuantityLedger
import Datagine.SpscSlots
import Datagine.Mirror
import Datagine.Lib.ByteStreams
import Datagine.ChecksumBytes
import Datagine.Lib.SlidingWindow
import Datagine.RollingWindows
import Datagine.EwmaScores
import Datagine.Features
import Datagine.Imbalance
import Datagine.SpscObserver
import Datagine.StricterSettings
import Datagine.Lib.ExponentialAverage
import Datagine.SplitExecutions
import Datagine.CsvEncoding
import Datagine.PooledValidator
import Datagine.AccessSafety
import Datagine.WindowExpiry
import Datagine.ScoreIsolation
import Datagine.Lib.FairRuns
import Datagine.QueuedReplay
import Datagine.ValidatedStates
import Datagine.CrossingAdds
import Datagine.PoolReuse
import Datagine.ReplayMonitoring
import Datagine.Checkpoint
import Datagine.Respelling
import Datagine.Lib.Numerals
import Datagine.ReplayTool
import Datagine.Relabelling
import Datagine.Lib.QueueOrder
import Datagine.TimePriority
import Datagine.ReplayRules
import Datagine.RelabelledAnomalies
import Datagine.Benchmarks
import Datagine.Lib.Traced
import Datagine.PooledValidatorReads
