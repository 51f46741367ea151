import TitCo.Transition
import TitCo.Queue
import TitCo.Transfer
import TitCo.MachineInt
import TitCo.ByteMemory
import TitCo.StreamBuffer
import TitCo.Tasks
import TitCo.Wakeup
import TitCo.TaskOrder
import TitCo.CoMutex
import TitCo.Settling
import TitCo.MutexDrain
import TitCo.TaskDrain
import TitCo.SharedStack
import TitCo.StackRestore
import TitCo.WordMemory
import TitCo.Program
import TitCo.X64
import TitCo.Context
import TitCo.Arm64
import TitCo.ContextArm64
import TitCo.CoroutineSwitch
import TitCo.Epoll
import TitCo.IoWait
import TitCo.EdgeRead
import TitCo.Interest
import TitCo.IoDispatch
import TitCo.Shutdown
import TitCo.Close
import TitCo.Numeral
import TitCo.Decimal
import TitCo.IntegerText
import TitCo.StreamText
import TitCo.Binary64
import TitCo.ShortForm
import TitCo.Sock
import TitCo.SockRecvn
import TitCo.SockSend
import TitCo.NegativeTimeout
import TitCo.SocketState
import TitCo.RpcFrame
import TitCo.RpcHeader
import TitCo.RpcMessage
import TitCo.RpcSend
import TitCo.RingBuffer
import TitCo.Channel
import TitCo.ChannelFifo
import TitCo.ChannelRep
import TitCo.RingBounds
import TitCo.ChannelBalance
import TitCo.WaitBlock
import TitCo.Timers
import TitCo.Scheduler
import TitCo.RoundRobin
import TitCo.TimerHint
import TitCo.TimeoutScan
import TitCo.WaitTime
import TitCo.CoPool
import TitCo.PoolRange
import TitCo.ClosureStorage
import TitCo.StaleTimer
import TitCo.TimedWait
import TitCo.SlotReuse
import TitCo.HandOff
import TitCo.TimeoutFlag
import TitCo.Publication
import TitCo.RpcClient
import TitCo.PendingTable
import TitCo.SendLoop
import TitCo.RpcServer
import TitCo.ServerLoop
import TitCo.RpcRouting
import TitCo.RpcCall
import TitCo.RpcFields
import TitCo.RpcConversation
import TitCo.FieldParse
import TitCo.ProtobufRuntime
import TitCo.Protobuf
import TitCo.HelloConversation
