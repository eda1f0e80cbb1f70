import XToolkits.Lib.Memory
import XToolkits.Lib.Transition
import XToolkits.Lib.Cyclic
import XToolkits.Lib.SlotLog
import XToolkits.Lib.SlotFate
import XToolkits.Lib.WrapLayout
import XToolkits.Lib.StreamWindow
import XToolkits.Lib.Incremental
import XToolkits.Lib.Ring
import XToolkits.Lib.RingTour
import XToolkits.Lib.Footprint
import XToolkits.Lib.Chain
import XToolkits.Lib.LinkedTree
import XToolkits.Lib.BlockScan
import XToolkits.Lib.Binary64
import XToolkits.Lib.BitString
import XToolkits.Lib.Decimal
import XToolkits.Lib.DecimalError
import XToolkits.Lib.OnesComplement
import XToolkits.Fifo.EasyFifo
import XToolkits.Fifo.Entries
import XToolkits.Fifo.Order
import XToolkits.Fifo.ZeroCopy
import XToolkits.Fifo.FixedSize
import XToolkits.Fifo.Drops
import XToolkits.Fifo.Wakeup
import XToolkits.Ipc.Shm
import XToolkits.Ipc.Order
import XToolkits.Ipc.Data
import XToolkits.Ipc.MultiShm
import XToolkits.Ipc.MultiRing
import XToolkits.Ipc.MultiReader
import XToolkits.Ipc.MultiSync
import XToolkits.Ipc.MultiSlots
import XToolkits.Ipc.MultiWrap
import XToolkits.Ipc.MultiResult
import XToolkits.Ipc.MultiLayout
import XToolkits.Queue.Queue
import XToolkits.Ipc.Calls
import XToolkits.Ipc.WriteBounds
import XToolkits.Ipc.ShareMap
import XToolkits.Ipc.ShortRead
import XToolkits.Ipc.Accounting
import XToolkits.Queue.Conservation
import XToolkits.Comm.Parse
import XToolkits.Comm.Deframe
import XToolkits.Comm.Rounds
import XToolkits.Comm.Sync
import XToolkits.Comm.Msg
import XToolkits.Comm.Delivery
import XToolkits.Comm.Relay
import XToolkits.Comm.Sink
import XToolkits.Comm.DLinkList
import XToolkits.Comm.DLinkSequence
import XToolkits.Comm.ClientMgr
import XToolkits.Comm.Travel
import XToolkits.Comm.Insert
import XToolkits.Comm.SinkCount
import XToolkits.Comm.Room
import XToolkits.Comm.Bounds
import XToolkits.Comm.SendMsg
import XToolkits.Comm.Transfer
import XToolkits.Base64.Codec
import XToolkits.Base64.Encode
import XToolkits.Base64.Decode
import XToolkits.Base64.RoundTrip
import XToolkits.Base64.Standard
import XToolkits.Base64.File
import XToolkits.Net.Checksum
import XToolkits.Net.Ping
import XToolkits.Net.Received
import XToolkits.Net.Route
import XToolkits.Net.NetInfo
import XToolkits.Json.Print
import XToolkits.Json.Parse
import XToolkits.Json.Grammar
import XToolkits.Json.Scan
import XToolkits.Json.ParseText
import XToolkits.Json.PrintText
import XToolkits.Json.PrintSize
import XToolkits.Json.Buffered
import XToolkits.Json.Minify
import XToolkits.Json.Safety
import XToolkits.Json.Heap
import XToolkits.Json.Forest
import XToolkits.Json.Children
import XToolkits.Json.Alloc
import XToolkits.Json.Edits
import XToolkits.Json.Calls
import XToolkits.Json.Leaks
import XToolkits.Json.Copies
import XToolkits.Json.Arrays
