import SocketTest.Timer.Containers
import SocketTest.Timer.Countdown
import SocketTest.Timer.InactiveRuns
import SocketTest.Http.Requests
import SocketTest.Lib.CrlfLines
import SocketTest.Http.Dispatch
import SocketTest.Http.Termination
import SocketTest.Http.Sending
import SocketTest.Timer.MinHeapSafety
import SocketTest.Timer.Alarm
import SocketTest.Http.DocRoot
import SocketTest.Lib.Threads
import SocketTest.ThreadPool.WorkQueue
import SocketTest.Lib.RoundRobin
import SocketTest.ProcessPool.Parent
import SocketTest.ProcessPool.Dispatch
import SocketTest.Http.Mapping
import SocketTest.ThreadPool.Server
import SocketTest.ThreadPool.Slots
import SocketTest.ThreadPool.Serving
import SocketTest.Lib.SwapRemove
import SocketTest.ShmTest.Parent
import SocketTest.ShmTest.Slots
import SocketTest.ShmTest.Children
import SocketTest.ShmTest.Relay
import SocketTest.ShmTest.Region
import SocketTest.ChatServer.Server
import SocketTest.ChatServer.Table
import SocketTest.ChatServer.Broadcast
import SocketTest.Lib.Drain
import SocketTest.Timer.MinHeapDrain
import SocketTest.Timer.MinHeapBounds
import SocketTest.Timer.MinHeapSubtree
import SocketTest.Http.LineSplit
import SocketTest.Http.ReadBuffer
import SocketTest.Http.Body
import SocketTest.Http.RequestLine
import SocketTest.Http.Headers
import SocketTest.Http.WholePath
import SocketTest.Http.WriteBuffer
import SocketTest.ProcessPool.Cgi
import SocketTest.Lib.LowestFree
import SocketTest.ThreadPool.Descriptors
import SocketTest.ChatServer.Capacity
import SocketTest.ChatServer.Interest
import SocketTest.Lib.Ownership
import SocketTest.Timer.Lifetime
import SocketTest.Timer.WheelSchedule
import SocketTest.Http.OneResponse
import SocketTest.Http.Exchange
import SocketTest.Lib.Settles
import SocketTest.Lib.SelfPipe
import SocketTest.Multiplexing.Epoll
import SocketTest.Multiplexing.EpollRest
import SocketTest.ProcessPool.Shutdown
import SocketTest.ShmTest.Shutdown
import SocketTest.Lib.SemUndo
import SocketTest.MultiProcess.SemTest
import SocketTest.ChatServer.Client
import SocketTest.ChatServer.Chat
import SocketTest.ThreadPool.Idle
import SocketTest.Multiplexing.OneClient
import SocketTest.Nonblock.Connect
import SocketTest.ThreadPool.SlotAlone
