import RatioTap.Lib.FlatMemory
import RatioTap.Lib.CheckedLoop
import RatioTap.Lib.Decided
import RatioTap.Lib.FloorClock
import RatioTap.Lib.Polyphase
import RatioTap.Lib.SlidingHistory
import RatioTap.Lib.Upfirdn
import RatioTap.Lib.Word
import RatioTap.Design
import RatioTap.Schedule
import RatioTap.PhaseTable
import RatioTap.Converter
import RatioTap.Process
import RatioTap.Pull
import RatioTap.Session
import RatioTap.Accounting
import RatioTap.Stream
import RatioTap.ScheduleWalk
import RatioTap.WalkStream
import RatioTap.PullStream
import RatioTap.SessionStream
import RatioTap.Clock
import RatioTap.Predictions
import RatioTap.Sources
import RatioTap.AnySource
import RatioTap.NaiveLoop
import RatioTap.WalkMachine
import RatioTap.Agreement
import RatioTap.Channels
import RatioTap.HistoryInvariant
import RatioTap.FullTable
import RatioTap.Flush
import RatioTap.Prototype
import RatioTap.Construction
import RatioTap.Resampling
import RatioTap.DcGain
import RatioTap.ConverterConstruction
import RatioTap.CApi
import RatioTap.CApiHandles
import RatioTap.Lib.LinearPeriodic
import RatioTap.Lib.PeakGain
import RatioTap.Lib.HistoryCells
import RatioTap.Drive
import RatioTap.MemoryMap
import RatioTap.TableResponse
import RatioTap.LinearResponse
import RatioTap.Headroom
import RatioTap.Latency
import RatioTap.Superblock
import RatioTap.Glitch
import RatioTap.PullChain
import RatioTap.Reference
import RatioTap.Bridge
import RatioTap.Fifo
import RatioTap.RoundTrip
