import LinuxPrograms.LibRuns
import LinuxPrograms.LibMultimap
import LinuxPrograms.LibRecords
import LinuxPrograms.C1000kTimers
import LinuxPrograms.C1000kNetwork
import LinuxPrograms.C1000kListenfd
import LinuxPrograms.C1000kEffects
import LinuxPrograms.C1000kHandoff
import LinuxPrograms.C1000kStranded
import LinuxPrograms.C1000kBacklog
import LinuxPrograms.C1000kWorker
import LinuxPrograms.C1000kFraming
import LinuxPrograms.C1000kRounds
import LinuxPrograms.C1000kArmed
import LinuxPrograms.C1000kClients
import LinuxPrograms.C1000kCorrespondence
import LinuxPrograms.LibArrays
import LinuxPrograms.EpollTcpClients
import LinuxPrograms.EpollTcpTasks
import LinuxPrograms.PollServerModel
import LinuxPrograms.PollServerSteps
import LinuxPrograms.PollServerTables
import LinuxPrograms.PollServerCounter
import LinuxPrograms.LibCrc
import LinuxPrograms.Crc32
import LinuxPrograms.Crc16
import LinuxPrograms.EtcpReads
import LinuxPrograms.EtcpReadline
import LinuxPrograms.HeartBeat1Loops
import LinuxPrograms.HeartBeat1Framing
import LinuxPrograms.HeartBeat1Timing
import LinuxPrograms.HeartBeat2Client
import LinuxPrograms.PollServerReceive
import LinuxPrograms.EpollTcpReports
import LinuxPrograms.EpollTcpBacklog
import LinuxPrograms.EpollTcpBounds
import LinuxPrograms.PollServerTransmit
import LinuxPrograms.LibFifo
import LinuxPrograms.QueueArray
import LinuxPrograms.LibChain
import LinuxPrograms.QueueLinkList
import LinuxPrograms.C1000kTimedPhase
import LinuxPrograms.C1000kChunks
import LinuxPrograms.C1000kOrders
import LinuxPrograms.LibScan
import LinuxPrograms.PollServerAdmission
import LinuxPrograms.PollServerSend
import LinuxPrograms.PollServerCompletion
import LinuxPrograms.EpollTcpHandle
import LinuxPrograms.EpollTcpBroadcast
import LinuxPrograms.C1000kCursor
import LinuxPrograms.C1000kAddressing
import LinuxPrograms.C1000kClientLoop
import LinuxPrograms.C1000kDrain
import LinuxPrograms.C1000kFrame
import LinuxPrograms.C1000kFailures
import LinuxPrograms.SelectServerTransmit
import LinuxPrograms.EtcpTransfer
import LinuxPrograms.EtcpRecords
import LinuxPrograms.EtcpReadlineBounds
import LinuxPrograms.ReadLine
import LinuxPrograms.EtcpPassiveSocket
import LinuxPrograms.Bitree
import LinuxPrograms.BitreePreorder
import LinuxPrograms.LibLoops
import LinuxPrograms.SingleListReverse
import LinuxPrograms.LibFlags
import LinuxPrograms.Uart
import LinuxPrograms.UartHistory
import LinuxPrograms.LibThreads
import LinuxPrograms.ThreadpoolModel
import LinuxPrograms.ThreadpoolSteps
import LinuxPrograms.ThreadpoolTasks
import LinuxPrograms.ThreadpoolInvariants
import LinuxPrograms.ThreadpoolShutdown
import LinuxPrograms.ThreadpoolRest
import LinuxPrograms.ThreadpoolJobs
import LinuxPrograms.BitreeDelete
import LinuxPrograms.UnixStream
import LinuxPrograms.UnixStreamOutput
import LinuxPrograms.UnixDgram
import LinuxPrograms.UnixDgramReplies
import LinuxPrograms.GetNum
import LinuxPrograms.UgidFunctions
import LinuxPrograms.HeartBeat2System
import LinuxPrograms.HeartBeat2Timing
import LinuxPrograms.BecomeDaemon
import LinuxPrograms.EtcpAddress
import LinuxPrograms.EtcpConnect
import LinuxPrograms.C1000kClientMain
import LinuxPrograms.C1000kOnTime
import LinuxPrograms.PollServerMemory
import LinuxPrograms.EpollTcpPool
import LinuxPrograms.EpollTcpPoolRefines
import LinuxPrograms.EpollTcpPoolShown
