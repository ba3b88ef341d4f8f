import CppRepo.Library.Text
import CppRepo.Library.Exec
import CppRepo.Library.Loops
import CppRepo.Library.CLibrary
import CppRepo.Library.ChunkedCoding
import CppRepo.Library.KeyedList
import CppRepo.Library.RecencyList
import CppRepo.Library.StackDistance
import CppRepo.Library.Machine
import CppRepo.Library.Transition
import CppRepo.Library.Ranking
import CppRepo.Library.Counting
import CppRepo.Library.Ownership
import CppRepo.Library.Heap
import CppRepo.Library.Ring
import CppRepo.Library.Chain
import CppRepo.Library.RoundRobin
import CppRepo.Library.Lines
import CppRepo.Library.Separator
import CppRepo.Library.HeadSyntax
import CppRepo.Library.Paths
import CppRepo.Library.Descriptors
import CppRepo.Library.PairSum
import CppRepo.Library.Bisection
import CppRepo.Library.SummandProducts
import CppRepo.Library.StarPattern
import CppRepo.Http.Client
import CppRepo.Http.Filters
import CppRepo.Http.StaticOutputBufferer
import CppRepo.Http.ClientIo
import CppRepo.Http.Environment
import CppRepo.Http.HeaderNames
import CppRepo.Http.Connection
import CppRepo.Http.ConnectionList
import CppRepo.Http.HeadBuffering
import CppRepo.Http.Delivery
import CppRepo.Http.Chunking
import CppRepo.Http.Accounting
import CppRepo.Http.HeadOrder
import CppRepo.Http.HeadScripts
import CppRepo.Http.Serving
import CppRepo.Http.UploadLength
import CppRepo.Http.Containment
import CppRepo.Http.Responses
import CppRepo.Http.HeaderInjection
import CppRepo.Http.Rendering
import CppRepo.Http.Framing
import CppRepo.Http.Shutdown
import CppRepo.Http.Accepting
import CppRepo.Http.ParsePort
import CppRepo.FileServer.FileServer
import CppRepo.FileServer.DocRoot
import CppRepo.FileServer.Session
import CppRepo.Lru.LruMap
import CppRepo.Lru.Refinement
import CppRepo.Lru.Inclusion
import CppRepo.Lru.Distance
import CppRepo.Lru.ExceptionSafety
import CppRepo.Buffers.Buffers
import CppRepo.Buffers.Contents
import CppRepo.Buffers.Runs
import CppRepo.Buffers.Move
import CppRepo.Buffers.Traversal
import CppRepo.Buffers.Lifetime
import CppRepo.Prebuffer.Prebuffer
import CppRepo.Prebuffer.Reading
import CppRepo.Prebuffer.PutBack
import CppRepo.Prebuffer.Writing
import CppRepo.Prebuffer.FailedPuts
import CppRepo.Prebuffer.Duplex
import CppRepo.Tasks.TaskManager
import CppRepo.Tasks.LockDiscipline
import CppRepo.Tasks.Conservation
import CppRepo.Tasks.Monitor
import CppRepo.Tasks.Drain
import CppRepo.Select.TaskManager
import CppRepo.Select.Unregister
import CppRepo.Select.Wakeup
import CppRepo.Select.Deadlock
import CppRepo.Select.Exit
import CppRepo.Select.Descriptors
import CppRepo.Chat.Session
import CppRepo.Chat.Reading
import CppRepo.Chat.Room
import CppRepo.Chat.Server
import CppRepo.Chat.Delivery
import CppRepo.Echo.Async
import CppRepo.Echo.Spawn
import CppRepo.Echo.Timeout
import CppRepo.Rpc.Greeter
import CppRepo.Rpc.Lifetime
import CppRepo.Rpc.Answers
import CppRepo.Rpc.Progress
import CppRepo.UpThread.UpThread
import CppRepo.Daemon.Election
import CppRepo.Daemon.Loop
import CppRepo.Daemon.Termination
import CppRepo.Daemon.Leadership
import CppRepo.TestCpp.GetSum
import CppRepo.TestCpp.MaxProduct
import CppRepo.TestCpp.SearchMatrix
import CppRepo.TestCpp.Reverse
import CppRepo.TestCpp.CommonPrefix
import CppRepo.TestCpp.IsMatch
import CppRepo.TestCpp.Thr
import CppRepo.TestCpp.Turns
import CppRepo.TestCpp.Stop
