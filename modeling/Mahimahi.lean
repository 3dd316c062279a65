import Mahimahi.DropBitrate.Droppers
import Mahimahi.DropBitrate.Messages
import Mahimahi.DropBitrate.Progress
import Mahimahi.DropBitrate.Rates
import Mahimahi.Ferry.DelayShell
import Mahimahi.Ferry.LinkShell
import Mahimahi.Ferry.LossShell
import Mahimahi.Graphing.Quantities
import Mahimahi.Http.Assertions
import Mahimahi.Http.ChunkedPieces
import Mahimahi.Http.Interim
import Mahimahi.Http.ProxyLoop
import Mahimahi.Http.Reprint
import Mahimahi.Link.Eager
import Mahimahi.Link.LogReader
import Mahimahi.Link.Punctual
import Mahimahi.Link.Trace
import Mahimahi.Link.Window
import Mahimahi.Packet.Arguments
import Mahimahi.Queues.ActiveNet
import Mahimahi.Queues.Codel
import Mahimahi.Queues.CodelClock
import Mahimahi.Queues.CodelDequeue
import Mahimahi.Queues.DropHead
import Mahimahi.Queues.Limits
import Mahimahi.Queues.NullLog
import Mahimahi.Queues.Parsed
import Mahimahi.Queues.Pie
import Mahimahi.Replay.Session
import Mahimahi.Scripts.RateToEvents
import Mahimahi.Scripts.SignalDelay
import Mahimahi.Scripts.ThroughputGraph
import Mahimahi.Util.ByteStreamQueue
import Mahimahi.Util.EventLoop
import Mahimahi.Util.Interfaces
import Mahimahi.Util.Relay
