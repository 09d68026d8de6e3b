import Honeycomb.Theory.Refine
import Honeycomb.Theory.Mmcsd
import Honeycomb.Theory.MutexOwner
import Honeycomb.Theory.MutexPriority
import Honeycomb.Theory.IpcOrder
import Honeycomb.Theory.MessageQueue
import Honeycomb.Theory.HeapSearch
import Honeycomb.Theory.Kservice
import Honeycomb.Theory.MemHeap
import Honeycomb.Theory.Tickless
import Honeycomb.Theory.MemPool
import Honeycomb.Theory.Proto
import Honeycomb.Theory.SystemCfg
import Honeycomb.Theory.PageAlloc
import Honeycomb.Theory.SerialRx
import Honeycomb.Theory.SerialDevice
import Honeycomb.Theory.SerialTx
import Honeycomb.Theory.VbusRing
import Honeycomb.Theory.CanRx
import Honeycomb.Theory.VbusChn
import Honeycomb.Theory.PrioQueue
import Honeycomb.Theory.Device
import Honeycomb.Theory.Rwlock
import Honeycomb.Theory.Pipe
import Honeycomb.Theory.FdTable
import Honeycomb.Theory.WorkQueue
import Honeycomb.Theory.Pthread
import Honeycomb.Theory.Delay
import Honeycomb.Theory.Frames
import Honeycomb.Theory.SoftTimer
import Honeycomb.Theory.PoolBlocks
