import Lmbench.Bandwidth.Flow
import Lmbench.Bandwidth.Reader
import Lmbench.Bandwidth.Rounding
import Lmbench.Benchmp.Bracketing
import Lmbench.Benchmp.Capacity
import Lmbench.Benchmp.Cookie
import Lmbench.Benchmp.FixedLoad
import Lmbench.Benchmp.Outcome
import Lmbench.Benchmp.Provenance
import Lmbench.Benchmp.Shutdown
import Lmbench.Benchmp.Usage
import Lmbench.BwFileRd.Reads
import Lmbench.BwMem.Coverage
import Lmbench.BwTcp.Stream
import Lmbench.BwUdp.Request
import Lmbench.BwUdp.Transfer
import Lmbench.Cache.BackOut
import Lmbench.Cache.CheckMemory
import Lmbench.Cache.CollectData
import Lmbench.Cache.Exchange
import Lmbench.Cache.Levels
import Lmbench.Cache.LostPage
import Lmbench.Cache.Measure
import Lmbench.Cache.Optimiser
import Lmbench.Cache.Search
import Lmbench.Cache.Spare
import Lmbench.Disk.Distance
import Lmbench.Disk.Seekto
import Lmbench.Disk.Size
import Lmbench.Disk.Strides
import Lmbench.LatCtx.Ring
import Lmbench.LatDramPage.Regroup
import Lmbench.LatFcntl.PingPong
import Lmbench.LatFs.Lifecycle
import Lmbench.LatFs.Names
import Lmbench.LatMemRd.Step
import Lmbench.LatPagefault.Faults
import Lmbench.LatPipe.RoundTrips
import Lmbench.LatSelect.Watch
import Lmbench.LatSem.Alternation
import Lmbench.LatSig.Prot
import Lmbench.LatTcp.Exchange
import Lmbench.LatUdp.Transactions
import Lmbench.Lib.BitReversal
import Lmbench.Lib.Blocks
import Lmbench.Lib.ByteCopy
import Lmbench.Lib.Calendar
import Lmbench.Lib.Climb
import Lmbench.Lib.Endian
import Lmbench.Lib.Fifo
import Lmbench.Lib.FillTree
import Lmbench.Lib.Interleaving
import Lmbench.Lib.LeastMode
import Lmbench.Lib.LeastSquares
import Lmbench.Lib.Loops
import Lmbench.Lib.PointerChain
import Lmbench.Lib.Rearrange
import Lmbench.Lib.Store
import Lmbench.Lib.Transition
import Lmbench.Lmdd.Area
import Lmbench.Lmdd.Arguments
import Lmbench.Lmdd.Histogram
import Lmbench.Lmdd.Norepeat
import Lmbench.Lmdd.Pattern
import Lmbench.Lmdd.Total
import Lmbench.Lmdd.Tracking
import Lmbench.Lmhttp.Log
import Lmbench.Lmhttp.Request
import Lmbench.Lmhttp.Time
import Lmbench.Lmhttp.Transfer
import Lmbench.Mem.Bounds
import Lmbench.Mem.Footprint
import Lmbench.Mem.Initialize
import Lmbench.Mem.LineTest
import Lmbench.Mem.Parallel
import Lmbench.Mem.Permutation
import Lmbench.Mem.Rerun
import Lmbench.Mem.Thrash
import Lmbench.Mem.Tlb
import Lmbench.Mem.Words
import Lmbench.Memsize.Search
import Lmbench.Mhz.Buffers
import Lmbench.Mhz.Compute
import Lmbench.Mhz.Gcd
import Lmbench.Mhz.Mode
import Lmbench.Msgring.HotPotato
import Lmbench.Msgring.Record
import Lmbench.Msgring.Rendezvous
import Lmbench.Msgring.Report
import Lmbench.Options.Progress
import Lmbench.Options.Spelling
import Lmbench.Sched.Custom
import Lmbench.Sched.Pin
import Lmbench.Sched.Spread
import Lmbench.Stats.Moments
import Lmbench.Stats.Regression
import Lmbench.Tcp.Connect
import Lmbench.Timing.BenchInner
import Lmbench.Timing.Bread
import Lmbench.Timing.Elapsed
import Lmbench.Timing.Enough
import Lmbench.Timing.Median
import Lmbench.Timing.QnxClock
import Lmbench.Tlb.FindTlb
