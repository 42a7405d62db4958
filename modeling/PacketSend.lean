import PacketSend.Lib.Runs
import PacketSend.Lib.Places
import PacketSend.Lib.Keyed
import PacketSend.Lib.Words
import PacketSend.Lib.CString
import PacketSend.Lib.FirstFailure
import PacketSend.Lib.PollLoop
import PacketSend.Lib.Lifetime
import PacketSend.Lib.Magazine
import PacketSend.Lib.Tickets
import PacketSend.Lib.Ranking
import PacketSend.Lib.BulkQueue
import PacketSend.Lib.QueueClient
import PacketSend.PacketUtils
import PacketSend.Vote
import PacketSend.VoteAccess
import PacketSend.VoteCount
import PacketSend.WireFormat
import PacketSend.RecvPacket
import PacketSend.MbufLog
import PacketSend.RecvLoop
import PacketSend.RecvBuffers
import PacketSend.PacketRecv
import PacketSend.RecvOutput
import PacketSend.UniformVote
import PacketSend.SendCore
import PacketSend.SendSystem
import PacketSend.MbufHeader
import PacketSend.Traffic
import PacketSend.SendPooled
import PacketSend.PooledKept
import PacketSend.PoolBound
import PacketSend.PooledBound
import PacketSend.Lcores
import PacketSend.Mempool
import PacketSend.MempoolUse
import PacketSend.Ring
import PacketSend.RingFifo
import PacketSend.RingQueue
import PacketSend.RingProgress
import PacketSend.RingPool
import PacketSend.RingRest
import PacketSend.RingClient
import PacketSend.MempoolThread
import PacketSend.MempoolRing
import PacketSend.InitPort
import PacketSend.InitReport
import PacketSend.SendStats
import PacketSend.Startup
import PacketSend.Launch
