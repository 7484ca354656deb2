import RtcBase.BitBuffer.RoundTrip
import RtcBase.BitBuffer.Canonical
import RtcBase.BitBuffer.Exact
import RtcBase.BitBuffer.Cursor
import RtcBase.Buffer.Refine
import RtcBase.Buffer.View
import RtcBase.RefCount.Exact
import RtcBase.Numerics.SafeMinMax
import RtcBase.RateStatistics.Const
import RtcBase.RateStatistics.Overflow
import RtcBase.SwapQueue.Items
import RtcBase.SwapQueue.Linear
import RtcBase.Thread.Deliver
import RtcBase.Thread.Sleep
import RtcBase.Thread.Lifetime
import RtcBase.ThreadManager.SendGraph
import RtcBase.Loop.Drain
import RtcBase.Loop.Send
import RtcBase.Loop.WakeUp
import RtcBase.Loop.Handshake
import RtcBase.Trace.Lines
import RtcBase.Memory.AlignedArray
import RtcBase.Time.TmToTime
import RtcBase.Time.Systime
import RtcBase.Random.Range
import RtcBase.Random.Orbit
import RtcBase.Sync.RaceChecker
import RtcBase.Sync.CriticalSection
import RtcBase.Sync.PlatformThread
import RtcBase.Event.Signals
import RtcBase.Optional.Lifetimes
import RtcBase.Lib.WordPolynomial
import RtcBase.Random.Period
import RtcBase.Random.Counts
import RtcBase.Event.WakeUps
import RtcBase.Sync.CallOnce
import RtcBase.ThreadManager.Deadlock
import RtcBase.Loop.Progress
import RtcBase.Trace.Streams
import RtcBase.ThreadManager.Current
import RtcBase.Clear.Ends
import RtcBase.Buffer.Growth
