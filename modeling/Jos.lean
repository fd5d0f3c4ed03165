import Jos.Library.Prog
import Jos.Library.Chain
import Jos.Library.RefCount
import Jos.Kern.PageCalls
import Jos.Kern.Uvpt
import Jos.Kern.KernelSpace
import Jos.Kern.DoubleFree
import Jos.Kern.SharedPages
import Jos.Kern.UserMem
import Jos.Kern.EnvRuns
import Jos.Kern.Remap
import Jos.Kern.LoadImage
import Jos.Kern.SyscallAbi
import Jos.Kern.FreshData
import Jos.Kern.Memxv
import Jos.Kern.BootMap
import Jos.Kern.PageInit
import Jos.Kern.Pgmod
import Jos.Kern.UserLookup
import Jos.Kern.StabRange
import Jos.Lib.Memmove
import Jos.Lib.NumberField
import Jos.Lib.Printnum
import Jos.Lib.RoundTrip
import Jos.Kern.Runcmd
import Jos.Lib.StringField
import Jos.Lib.FormatScan
import Jos.Library.Simulation
import Jos.Lib.PrinterSim
import Jos.Lib.Snprintf
import Jos.Lib.Printf
import Jos.Kern.CheckSound
import Jos.Lib.Printbuf
import Jos.Kern.UserOutput
import Jos.Kern.CputsReads
import Jos.Kern.Isolation
import Jos.Kern.Teardown
import Jos.Kern.TlbRuns
import Jos.Lib.LineEdit
import Jos.Library.RingBuf
import Jos.Kern.ConsInput
import Jos.Kern.Screen
import Jos.Boot.Segments
import Jos.Kern.KeysHeld
import Jos.Kern.TrapOutcome
import Jos.Kern.Breakpoint
import Jos.Kern.UserTime
import Jos.Kern.Cprintf
import Jos.Kern.Init
import Jos.Inc.Descriptors
import Jos.Kern.EnvInit
import Jos.Kern.TrapInit
import Jos.Kern.Selectors
import Jos.Kern.PrivateMemory
import Jos.Library.ChainLoop
import Jos.Kern.Backtrace
import Jos.Library.Zoom
import Jos.Kern.MonitorLoop
import Jos.Kern.MonitorRights
import Jos.Kern.ConsOutput
import Jos.Kern.Typing
import Jos.Kern.EntryMap
import Jos.Library.BlockFill
import Jos.Lib.Memset
import Jos.Kern.PageFill
import Jos.Kern.ConsInit
