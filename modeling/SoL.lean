import SoL.Base.TimeZone.Safety
import SoL.Base.TimeZone.LocalTime
import SoL.Base.TimeZone.Utc
import SoL.Base.TimeZone.Format
import SoL.Net.Timer.Deadline
import SoL.Net.Timer.Sweep
import SoL.Base.AsyncLogging.Shutdown
import SoL.Base.AsyncLogging.Files
import SoL.Base.AsyncLogging.Stopping
import SoL.Base.CountDownLatch.Progress
import SoL.Base.LogStream.Canonical
import SoL.Base.Logging.Record
import SoL.Base.Logging.Time
import SoL.Base.LogFile.Names
import SoL.Base.FileUtil
import SoL.Base.Thread
import SoL.Net.EventLoop.Dispatch
import SoL.Net.EventLoop.Wakeup
import SoL.Net.EventLoop.Latency
import SoL.EchoServer
import SoL.Net.LastEvents
import SoL.Net.EventLoopThread
import SoL.Net.Sending
import SoL.Net.Server.Connections
import SoL.Http.Cuts
import SoL.Http.HeaderBlock
import SoL.Http.RequestLine
import SoL.Http.HandleRequest
import SoL.Http.Delivery
import SoL.Http.ErrorPage
import SoL.Http.ThreadPool.Progress
import SoL.Http.Timers.Ownership
