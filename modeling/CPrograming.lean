import CPrograming.Runs
import CPrograming.Counting
import CPrograming.Keys
import CPrograming.LinearBuffer
import CPrograming.DoublyLinked
import CPrograming.SinglyLinked
import CPrograming.Programs
import CPrograming.Monitor
import CPrograming.Posix
import CPrograming.ReadStream
import CPrograming.Connection
import CPrograming.Exchange
import CPrograming.Stall
import CPrograming.Duplex
import CPrograming.Libc
import CPrograming.SocketFunc
import CPrograming.Written
import CPrograming.Readn
import CPrograming.Readline
import CPrograming.ReadlineStream
import CPrograming.ReadlineIsolation
import CPrograming.ReadlineAnswers
import CPrograming.ThreadReadline
import CPrograming.ThreadReadlineCalls
import CPrograming.ThreadReadlineState
import CPrograming.LastLine
import CPrograming.Sum
import CPrograming.SumFraming
import CPrograming.SumSession
import CPrograming.SumExchange
import CPrograming.StrSession
import CPrograming.StrSessionDeadlock
import CPrograming.StrExchange
import CPrograming.StrEchoNum
import CPrograming.StrCliPipe
import CPrograming.Mismatch
import CPrograming.ThreadClient
import CPrograming.SelectClient
import CPrograming.SelectClientStranded
import CPrograming.SelectClientReturn
import CPrograming.UnlockStrCli
import CPrograming.UnlockStrCliInvariant
import CPrograming.UnlockStrCliReturn
import CPrograming.UnlockStrCliSession
import CPrograming.UnlockStrCliProgress
import CPrograming.Web
import CPrograming.WebInvariant
import CPrograming.WebRequest
import CPrograming.WebSelect
import CPrograming.WebLifecycle
import CPrograming.WebComplete
import CPrograming.WebProgress
import CPrograming.WebThread
import CPrograming.WebThreadInvariant
import CPrograming.WebThreadBookkeeping
import CPrograming.WebThreadDeadlock
import CPrograming.WebThreadReturn
import CPrograming.WebResponse
import CPrograming.WebRequestBounds
import CPrograming.EchoServer
import CPrograming.SelectServer
import CPrograming.SelectServerTable
import CPrograming.SelectServerReady
import CPrograming.SelectServerAccept
import CPrograming.PollServer
import CPrograming.PollServerOwnership
import CPrograming.PollServerFresh
import CPrograming.PollServerBounds
import CPrograming.EchoIsolation
import CPrograming.ForkServer
import CPrograming.EpollServer
import CPrograming.EpollServerRecv
import CPrograming.ThreadServer
import CPrograming.ThreadServerHandoff
import CPrograming.ConditionVar
import CPrograming.ConditionVarProgress
import CPrograming.ContainerList
import CPrograming.ContainerListRefinement
import CPrograming.ContainerListInit
import CPrograming.ContainerListDestory
import CPrograming.FuncList
import CPrograming.FuncMemary
import CPrograming.FuncString
