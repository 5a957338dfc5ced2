import YardIce.Lib.Runs
import YardIce.Lib.ListPool
import YardIce.Mbuf.Pool
import YardIce.Mbuf.Queue
import YardIce.Mbuf.Bytes
import YardIce.Mbuf.Invariant
import YardIce.Mbuf.PoolSpec
import YardIce.Mbuf.QueueSpec
import YardIce.Mbuf.Conservation
import YardIce.Mbuf.ByteFifo
import YardIce.Debugger.Breakpoints
import YardIce.Lib.Slots
import YardIce.Debugger.BreakpointAccounting
import YardIce.Tcp.Input
import YardIce.Tcp.Calls
import YardIce.Tcp.Output
import YardIce.Tcp.Prediction
import YardIce.Lib.OnesComplement
import YardIce.Net.Chksum
import YardIce.Tcp.OutputSpec
import YardIce.Tcp.Wire
import YardIce.Tcp.Connection
import YardIce.Lib.Stages
import YardIce.Tcp.InputSpec
import YardIce.Tcp.CallsSpec
import YardIce.Tcp.ReceiveStream
import YardIce.Tcp.SendWindow
import YardIce.Tcp.SendSequence
import YardIce.Tcp.Handshake
import YardIce.Tcp.System
import YardIce.Tcp.PcbLists
import YardIce.Debugger.BreakpointPool
import YardIce.Debugger.BreakpointTable
import YardIce.Cm3ice.Core
import YardIce.Cm3ice.RegisterCache
import YardIce.Adi.CacheCoherence
import YardIce.IceDrv.MemMap
import YardIce.IceDrv.MemDispatch
import YardIce.Debugger.PollHandshake
import YardIce.Debugger.TargetPolling
import YardIce.Gdb.Frames
import YardIce.Tftp.Daemon
import YardIce.Lib.StopAndWait
import YardIce.Tftp.Packets
import YardIce.Tftp.Upload
import YardIce.Tftp.Download
import YardIce.IceComm.Buffers
import YardIce.IceComm.Lossless
import YardIce.Jtag.IrScan
import YardIce.Lib.Attempt
import YardIce.MicroJs.Symtab
import YardIce.MicroJs.Grammar
import YardIce.MicroJs.Lexer
import YardIce.MicroJs.Sdt
import YardIce.MicroJs.Actions
import YardIce.MicroJs.Compiler
import YardIce.MicroJs.Layout
import YardIce.MicroJs.Objects
import YardIce.Lib.Effects
import YardIce.MicroJs.Discipline
import YardIce.MicroJs.Blocks
import YardIce.MicroJs.Rounds
import YardIce.MicroJs.Programs
import YardIce.MicroJs.Tables
import YardIce.MicroJs.Rollback
import YardIce.MicroJs.Scoping
import YardIce.MicroJs.Lockstep
import YardIce.MicroJs.FailedCompilation
import YardIce.Net.Routes
import YardIce.Net.EthArp
import YardIce.Net.IpInput
import YardIce.MicroJs.Json
import YardIce.MicroJs.JsonScan
import YardIce.MicroJs.JsonRoundTrip
import YardIce.Thinkos.Core
import YardIce.Thinkos.Effects
import YardIce.Thinkos.Keeps
import YardIce.Thinkos.Sane
import YardIce.Thinkos.Parking
import YardIce.Thinkos.Pausing
import YardIce.Thinkos.Semaphores
import YardIce.Thinkos.SemaphoreCalls
import YardIce.Thinkos.SemaphoreRuns
import YardIce.Thinkos.Places
import YardIce.Thinkos.Partition
import YardIce.Tcp.OutputFifo
import YardIce.IceDrv.MemErase
import YardIce.IceDrv.Stm32f2Erase
import YardIce.Telnet.Service
import YardIce.Nand.PageCache
import YardIce.Libc.Printf
import YardIce.Libc.Snprintf
import YardIce.Bacnet.PtpFrame
import YardIce.Bacnet.PtpRoundTrip
import YardIce.Xmodem.Arrivals
import YardIce.Xmodem.Agreement
import YardIce.Armice.Driver
import YardIce.Armice.HaltState
import YardIce.Armice.Watchpoints
import YardIce.Ell.Symbols
import YardIce.Lib.Saturation
import YardIce.Ell.Sets
import YardIce.Ell.Conflict
import YardIce.Ell.Tables
import YardIce.Ell.Parser
import YardIce.Tcp.TimerWalks
import YardIce.Tcp.WildLookup
import YardIce.Debugger.BreakpointOrder
import YardIce.Debugger.Arming
import YardIce.Debugger.ComparatorWrites
import YardIce.Tcp.OutputTermination
import YardIce.Tcp.Options
import YardIce.Tcp.SegmentReads
import YardIce.Adi.Bus
import YardIce.Adi.BlockTransfer
import YardIce.Adi.BlockRead
import YardIce.Adi.BlockWrite
import YardIce.Adi.BlockFill
import YardIce.IceDrv.ShortTransfers
import YardIce.IceDrv.Fallbacks
import YardIce.Cm3ice.InstructionFetch
import YardIce.Gdb.BinaryWrite
import YardIce.Gdb.MemoryBounds
import YardIce.Tftp.HexDump
import YardIce.Tftp.NetasciiDownload
import YardIce.Tftp.BadRequests
import YardIce.IceComm.Text
import YardIce.Jtag.ChainProbe
import YardIce.Jtag.TapChain
import YardIce.Jtag.ClockDivider
import YardIce.MicroJs.JsonBuffer
import YardIce.MicroJs.ParseObject
import YardIce.MicroJs.Strings
import YardIce.Net.Icmp
import YardIce.Script.Eval
import YardIce.Script.EvalRight
import YardIce.Mbuf.ListData
import YardIce.Mbuf.Shared
import YardIce.Net.UdpQueue
import YardIce.Lib.Windows
import YardIce.Xmodem.SendBuffer
import YardIce.Xmodem.Transmissions
import YardIce.Vcom.TcpInput
import YardIce.Telnet.ReceiveRing
import YardIce.IceDrv.FlashProgram
import YardIce.Ell.Analysis
import YardIce.Lib.Numerals
import YardIce.Libc.Decimal
import YardIce.MicroJs.Isqrt
import YardIce.Libc.Strtoul
import YardIce.Shell.History
import YardIce.Thinkos.SlotAllocators
import YardIce.Armice.RegisterView
import YardIce.Httpd.Query
import YardIce.Httpd.Header
import YardIce.Shell.Readline
import YardIce.Libc.StandardFormat
import YardIce.Tcp.TwoHosts
import YardIce.Libc.NumberRoundTrip
