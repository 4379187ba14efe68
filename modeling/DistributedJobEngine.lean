import DistributedJobEngine.Job
import DistributedJobEngine.RetryBackoff
import DistributedJobEngine.MetricsHistogram
import DistributedJobEngine.LibHeap
import DistributedJobEngine.Queue
import DistributedJobEngine.QueueInvariant
import DistributedJobEngine.QueueMap
import DistributedJobEngine.QueueRefinement
import DistributedJobEngine.QueueLive
import DistributedJobEngine.QueueStorage
import DistributedJobEngine.LibTable
import DistributedJobEngine.Database
import DistributedJobEngine.Store
import DistributedJobEngine.StoreRefinement
import DistributedJobEngine.StoreRow
import DistributedJobEngine.StoreAnswers
import DistributedJobEngine.StoreDurability
import DistributedJobEngine.StoreReads
import DistributedJobEngine.Engine
import DistributedJobEngine.EngineSubmit
import DistributedJobEngine.LibGraph
import DistributedJobEngine.EngineKahn
import DistributedJobEngine.EngineFrames
import DistributedJobEngine.LibPool
import DistributedJobEngine.Board
import DistributedJobEngine.BoardSafety
import DistributedJobEngine.BoardMoves
import DistributedJobEngine.BoardAccounting
import DistributedJobEngine.EngineBoard
import DistributedJobEngine.EngineMoves
import DistributedJobEngine.EngineMovesEnd
import DistributedJobEngine.BoardAdmission
import DistributedJobEngine.EngineAdmission
import DistributedJobEngine.EngineGraph
import DistributedJobEngine.EngineMachine
import DistributedJobEngine.EngineRaces
import DistributedJobEngine.EngineLeases
import DistributedJobEngine.EngineColumns
import DistributedJobEngine.EngineReplies
import DistributedJobEngine.EngineWatchdog
import DistributedJobEngine.EngineKinds
import DistributedJobEngine.BoardTurns
import DistributedJobEngine.BoardParents
import DistributedJobEngine.EngineTurns
import DistributedJobEngine.EnginePlaces
import DistributedJobEngine.BoardLabels
import DistributedJobEngine.EngineLabels
import DistributedJobEngine.EngineRecover
import DistributedJobEngine.EngineHistory
import DistributedJobEngine.EngineClock
import DistributedJobEngine.EngineLives
import DistributedJobEngine.EngineIntake
import DistributedJobEngine.EngineEntries
import DistributedJobEngine.EngineCapacity
import DistributedJobEngine.EngineWorkflow
import DistributedJobEngine.EngineSkip
import DistributedJobEngine.EngineTimes
import DistributedJobEngine.ApiRouter
import DistributedJobEngine.ApiRoutes
import DistributedJobEngine.EngineQueue
import DistributedJobEngine.EngineRows
import DistributedJobEngine.EngineCells
import DistributedJobEngine.EngineCancels
import DistributedJobEngine.EngineVerdicts
import DistributedJobEngine.EngineStops
import DistributedJobEngine.EngineCancelWins
import DistributedJobEngine.EngineCrash
import DistributedJobEngine.EngineRestart
import DistributedJobEngine.EngineGenerations
import DistributedJobEngine.EnginePunctuality
import DistributedJobEngine.EngineBudget
import DistributedJobEngine.EngineOrder
import DistributedJobEngine.LibTransaction
import DistributedJobEngine.StoreConnection
import DistributedJobEngine.HttpPool
import DistributedJobEngine.LibText
import DistributedJobEngine.Text
import DistributedJobEngine.LibRadix
import DistributedJobEngine.TextId
import DistributedJobEngine.TextInteger
import DistributedJobEngine.JsonText
import DistributedJobEngine.JsonScan
import DistributedJobEngine.JsonRoundTrip
import DistributedJobEngine.JsonShape
import DistributedJobEngine.JsonGrammar
import DistributedJobEngine.JsonPretty
import DistributedJobEngine.ApiJson
import DistributedJobEngine.WorkerWire
import DistributedJobEngine.HttpParser
import DistributedJobEngine.HttpChunks
import DistributedJobEngine.HttpConnection
import DistributedJobEngine.HttpRoundTrip
