import NetTraverse.Lib.Transition
import NetTraverse.Lib.Fifo
import NetTraverse.Lib.Region
import NetTraverse.Lib.Words
import NetTraverse.Lib.X86
import NetTraverse.Lib.OrdMap
import NetTraverse.Lib.Latest
import NetTraverse.Lib.Effect
import NetTraverse.Lib.SelfDelimiting
import NetTraverse.Lib.Cbc
import NetTraverse.Lib.Aes256
import NetTraverse.Coroutine.Context
import NetTraverse.Coroutine.Scheduler
import NetTraverse.Coroutine.Machine
import NetTraverse.Coroutine.Swapper
import NetTraverse.Coroutine.ContextSwitch
import NetTraverse.Coroutine.Switch
import NetTraverse.Coroutine.Control
import NetTraverse.Coroutine.Order
import NetTraverse.Coroutine.Dispatch
import NetTraverse.Coroutine.Destroy
import NetTraverse.Coroutine.StackCopies
import NetTraverse.Coroutine.InMemory
import NetTraverse.Coroutine.Process
import NetTraverse.Coroutine.MemoryRuns
import NetTraverse.Coroutine.Resumption
import NetTraverse.Network.AsyncFileEvent
import NetTraverse.Network.EventLoop
import NetTraverse.Network.Scheduling
import NetTraverse.Network.Waiters
import NetTraverse.Network.Edges
import NetTraverse.Network.Wakeups
import NetTraverse.Network.Registry
import NetTraverse.Network.InterestList
import NetTraverse.Network.Ownership
import NetTraverse.Network.TcpStream
import NetTraverse.Network.Transfer
import NetTraverse.Network.Address
import NetTraverse.Crypto.ByteBuffer
import NetTraverse.Crypto.BufferRuns
import NetTraverse.Crypto.Evp
import NetTraverse.Crypto.Aes
import NetTraverse.Crypto.AesLaws
import NetTraverse.Bridge.Tunnel
import NetTraverse.Bridge.MacTable
import NetTraverse.Bridge.Learning
import NetTraverse.Bridge.Server
import NetTraverse.Bridge.Broadcast
import NetTraverse.Bridge.Reply
import NetTraverse.Bridge.Ports
import NetTraverse.Bridge.TunnelNet
import NetTraverse.Bridge.TunnelSafety
import NetTraverse.Bridge.Forgery
import NetTraverse.Bridge.UdpBridge
import NetTraverse.Bridge.UdpPeers
import NetTraverse.Bridge.UdpRelay
import NetTraverse.Bridge.Json
import NetTraverse.Bridge.InfoReply
import NetTraverse.Socks.Handler
import NetTraverse.Socks.Request
import NetTraverse.Socks.Targets
import NetTraverse.Socks.ConnectReply
import NetTraverse.Socks.Relay
import NetTraverse.Protocol.Mbuf
import NetTraverse.Protocol.Acceptance
import NetTraverse.Protocol.TcpFrames
