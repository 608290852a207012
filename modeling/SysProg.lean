import SysProg.Lib.Execution
import SysProg.Lib.BoundedMonitor
import SysProg.Lib.LineStream
import SysProg.Lib.FileReads
import SysProg.Lib.LockPrograms
import SysProg.Lib.MachineInt
import SysProg.Lib.MaximalRuns
import SysProg.Lib.RepeatPattern
import SysProg.Lib.RingBuffer
import SysProg.Lib.RunSplit
import SysProg.Lib.CText
import SysProg.Lib.ScanFormat
import SysProg.Lib.SharedCounter
import SysProg.Lib.StableSort
import SysProg.Lib.ComparatorSort
import SysProg.HW2.Parent
import SysProg.HW2.Reaping
import SysProg.HW2.Shutdown
import SysProg.HW2.MatchRecord
import SysProg.HW2.Pattern
import SysProg.HW2.PatternLanguage
import SysProg.HW2.Segments
import SysProg.HW1.FileName
import SysProg.HW2.Search
import SysProg.HW2.Finds
import SysProg.HW2.Coverage
import SysProg.HW2.MatchCount
import SysProg.HW3.SharedWord
import SysProg.HW3.Elevator
import SysProg.HW3.System
import SysProg.HW3.SystemSteps
import SysProg.HW3.CompletionCounter
import SysProg.HW3.Admission
import SysProg.HW3.ExactlyOnce
import SysProg.HW3.SortingProgress
import SysProg.HW3.DeliverySlots
import SysProg.HW3.Traffic
import SysProg.HW3.Journeys
import SysProg.HW3.Population
import SysProg.HW3.Respawn
import SysProg.HW3.Exhaustion
import SysProg.HW3.RequestPosts
import SysProg.HW3.BatchCollection
import SysProg.HW3.OutputFile
import SysProg.HW3.LockSem
import SysProg.HW3.LockOrder
import SysProg.HW4.LogEntry
import SysProg.HW4.Pipeline
import SysProg.HW4.PipelineSteps
import SysProg.HW4.PipelineFlow
import SysProg.HW4.DispatcherExit
import SysProg.HW4.FileSplit
import SysProg.HW4.PipelineResult
import SysProg.HW4.RingQueues
import SysProg.HW4.Wakeups
import SysProg.HW5.OrderFile
import SysProg.HW5.OrderGrammar
import SysProg.HW5.OrderQueue
import SysProg.HW5.Shift
import SysProg.HW5.ShiftConservation
import SysProg.HW5.ShiftTotals
import SysProg.HW5.ServiceOrder
import SysProg.HW5.CourierWakeup
import SysProg.HW5.DeliveryTime
import SysProg.HW6.MagicCommon
import SysProg.HW6.Hogwarts
import SysProg.HW6.CommandOutcome
import SysProg.HW6.ServerEffects
import SysProg.HW6.SessionTable
import SysProg.HW6.Stock
import SysProg.HW6.Confinement
import SysProg.HW6.ClientCommon
import SysProg.HW6.LineFraming
import SysProg.HW6.Transport
import SysProg.HW6.Listings
import SysProg.HW6.FaultIsolation
import SysProg.HW4.LogLine
import SysProg.HW4.TopSources
import SysProg.HW4.SourceTotals
import SysProg.HW4.CrowdedLevel
import SysProg.HW4.ScheduleIndependence
import SysProg.HW4.Heartbeat
import SysProg.HW2.TreeListed
import SysProg.Lib.FairRuns
import SysProg.HW4.Aggregator
import SysProg.HW4.PipelineWork
import SysProg.HW4.PipelineEnds
import SysProg.HW4.Report
import SysProg.HW5.ShiftEnds
import SysProg.HW6.IngredientFile
import SysProg.HW6.Replies
import SysProg.HW6.ServerLoop
import SysProg.Lib.OptionArgs
import SysProg.HW4.CommandLine
import SysProg.HW4.Summary
import SysProg.HW4.Supervision
import SysProg.HW1.Search
import SysProg.HW2.WaitLoopEnds
import SysProg.HW2.Scanned
import SysProg.HW2.SearchProgram
