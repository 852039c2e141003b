import KernelM5040.Crypto.Gf128Product
import KernelM5040.Fs.LockAtomic
import KernelM5040.Fs.LockDeadlock
import KernelM5040.Ipc.SemUndo
import KernelM5040.Jbd.RecoveryBounds
import KernelM5040.Jbd.RecoveryReplay
import KernelM5040.Kernel.Hrtimer
import KernelM5040.Kernel.Kfifo
import KernelM5040.Kernel.PidAlloc
import KernelM5040.Kernel.PidNext
import KernelM5040.Kernel.RtMutexDeadlock
import KernelM5040.Kernel.RtMutexPriority
import KernelM5040.Kernel.TimerRuns
import KernelM5040.Lib.BitmapRegion
import KernelM5040.Lib.BitmapRemap
import KernelM5040.Lib.Div64
import KernelM5040.Lib.IdrFirstFree
import KernelM5040.Lib.IommuHelper
import KernelM5040.Lib.RadixTreeFree
import KernelM5040.Lib.RadixTreePreload
import KernelM5040.Lib.RadixTreeTagRuns
import KernelM5040.Lib.ReciprocalDiv
import KernelM5040.Lib.Rwsem
import KernelM5040.Lib.Vsprintf
import KernelM5040.Md.DmTable
import KernelM5040.Md.Raid10Layout
import KernelM5040.Md.Raid5Map
import KernelM5040.Mm.BuddyCanonical
import KernelM5040.Mm.MmapRuns
import KernelM5040.Mm.VmallocRuns
import KernelM5040.Mtd.NandEcc
import KernelM5040.Net.FilterAccess
import KernelM5040.Net.FilterControl
import KernelM5040.Net.FilterScratch
import KernelM5040.Net.IpReassembly
import KernelM5040.Net.TcpRuns
import KernelM5040.Scripts.Kconfig
import KernelM5040.X86.E820
