import BareMetal.Lib.Run
import BareMetal.Lib.Align
import BareMetal.Lib.ByteMem
import BareMetal.Lib.LinkedPath
import BareMetal.Lib.Ring
import BareMetal.Asyn
import BareMetal.Memory.Memp
import BareMetal.Eth.Descriptor
import BareMetal.Eth.Receive
import BareMetal.Eth.Drain
import BareMetal.Eth.WakeUp
import BareMetal.Eth.Delivery
import BareMetal.Lib.Blocks
import BareMetal.Memory.Mem
import BareMetal.Memory.MemBlocks
import BareMetal.Memory.MemOps
import BareMetal.Memory.MemMalloc
import BareMetal.Memory.MemTrim
import BareMetal.Memory.MemRun
import BareMetal.Memory.MemCalloc
import BareMetal.Tcp.Output
import BareMetal.Tcp.Receive
import BareMetal.Tcp.Connection
import BareMetal.Tcp.Input
import BareMetal.Tcp.Lifecycle
import BareMetal.Tcp.StreamEnd
import BareMetal.Tcp.Ownership
import BareMetal.Tcp.RecvWindow
import BareMetal.Eth.TxRing
import BareMetal.Eth.LowLevelInput
import BareMetal.Tcp.PollTimer
import BareMetal.Tcp.RecvBuffer
import BareMetal.Tcp.PcbLists
import BareMetal.Tcp.Bind
import BareMetal.Lib.Records
import BareMetal.Tcp.Alloc
import BareMetal.Lib.InDegree
import BareMetal.Pbuf.Heap
import BareMetal.Pbuf.RefCount
import BareMetal.Pbuf.TotLen
import BareMetal.Pbuf.Calls
import BareMetal.Ip.Chksum
import BareMetal.Pbuf.Realloc
import BareMetal.Ip.Input
import BareMetal.Arp.Table
import BareMetal.Arp.Routes
import BareMetal.Tcp.Homes
import BareMetal.Tcp.ListOps
import BareMetal.Eth.DriverMemory
import BareMetal.Led
import BareMetal.Tcp.Demux
import BareMetal.Memory.MempLists
import BareMetal.App.Stack
import BareMetal.App.Init
import BareMetal.Pbuf.Alloc
import BareMetal.Pbuf.StoreRealloc
import BareMetal.Tcp.Retransmit
import BareMetal.Tcp.SenderLists
import BareMetal.Tcp.Timers
import BareMetal.Tcp.ListRun
import BareMetal.Ip.Output
import BareMetal.Tcp.StreamRun
import BareMetal.Ip.Icmp
import BareMetal.Sys.Cyclic
import BareMetal.Ip.AddrText
