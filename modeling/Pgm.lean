import Pgm.Ancestor
import Pgm.Buffers
import Pgm.Build
import Pgm.Chan
import Pgm.Complete
import Pgm.Condvar
import Pgm.Consume
import Pgm.Control
import Pgm.Count
import Pgm.CvMonitor
import Pgm.Dag
import Pgm.DagNames
import Pgm.Degree
import Pgm.Depth
import Pgm.Described
import Pgm.Drain
import Pgm.EdgeMove
import Pgm.Fill
import Pgm.Find
import Pgm.Flow
import Pgm.Grammar
import Pgm.Graph
import Pgm.Handles
import Pgm.IpcName
import Pgm.LastTokens
import Pgm.Layout
import Pgm.Ledger
import Pgm.Lib.Budget
import Pgm.Lib.Bytes
import Pgm.Lib.Circular
import Pgm.Lib.Dfs
import Pgm.Lib.Directory
import Pgm.Lib.FairLock
import Pgm.Lib.Firing
import Pgm.Lib.Framing
import Pgm.Lib.Kahn
import Pgm.Lib.Lexical
import Pgm.Lib.Lts
import Pgm.Lib.Monitor
import Pgm.Lib.Pairing
import Pgm.Lib.Reader
import Pgm.Lib.Refine
import Pgm.Lib.Scan
import Pgm.Lib.Search
import Pgm.Lib.Split
import Pgm.Lib.Stock
import Pgm.Lib.Threads
import Pgm.Lib.Traced
import Pgm.Lib.Walk
import Pgm.Lib.Word
import Pgm.Lib.Worklist
import Pgm.Link
import Pgm.Machine
import Pgm.MinDepth
import Pgm.Moves
import Pgm.Mpsc
import Pgm.Network
import Pgm.NodeMonitor
import Pgm.Opening
import Pgm.Owner
import Pgm.Parse
import Pgm.Premature
import Pgm.Query
import Pgm.QueueLock
import Pgm.Quiesce
import Pgm.RateGraph
import Pgm.Rates
import Pgm.Ready
import Pgm.Recv
import Pgm.Represent
import Pgm.Retry
import Pgm.RingBuf
import Pgm.RingDeadlock
import Pgm.RingTokens
import Pgm.Rings
import Pgm.SafePath
import Pgm.Schedule
import Pgm.Send
import Pgm.Shutdown
import Pgm.Sockets
import Pgm.Spsc
import Pgm.Store
import Pgm.StoreFifos
import Pgm.Stream
import Pgm.Tables
import Pgm.Tap
import Pgm.Terminate
import Pgm.TicketLock
import Pgm.Wakeup
import Pgm.Withheld
import Pgm.Workers
