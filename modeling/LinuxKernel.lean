import LinuxKernel.Fs.EventpollRun
import LinuxKernel.Fs.LocksDeadlock
import LinuxKernel.Fs.LocksFail
import LinuxKernel.Fs.LocksRange
import LinuxKernel.Ipc.MqueueRun
import LinuxKernel.Ipc.SemExactlyOnce
import LinuxKernel.Kernel.MuxedRegion
import LinuxKernel.Kernel.ResourceAdjust
import LinuxKernel.Kernel.RtmutexRun
import LinuxKernel.Kernel.TimerNextRun
import LinuxKernel.Lib.BitmapArea
import LinuxKernel.Lib.LruCreate
import LinuxKernel.Lib.PrioTreeRun
import LinuxKernel.Lib.RadixTreeGang
import LinuxKernel.Lib.Raid6
import LinuxKernel.Lib.RwsemSpinlock
import LinuxKernel.Mm.MemblockFind
import LinuxKernel.Mm.MemblockRemove
import LinuxKernel.Mm.PageAllocTail
import LinuxKernel.Net.IpFragmentRun
import LinuxKernel.Net.SctpTsnmapRun
import LinuxKernel.Net.SkFilterDiv
import LinuxKernel.Net.SkFilterNlattr
import LinuxKernel.Net.TcpInputRun
import LinuxKernel.Net.UnixGcCollect
import LinuxKernel.Security.Ebitmap
import LinuxKernel.Shell.MathBase
import LinuxKernel.Udhcp.DomainCodec
