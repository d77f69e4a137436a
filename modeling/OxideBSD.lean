import OxideBSD.Cron.Clock
import OxideBSD.Cron.Table
import OxideBSD.Fs.Fd
import OxideBSD.Fs.FdBitmap
import OxideBSD.Fs.Fifo
import OxideBSD.Fs.MqueueSleep
import OxideBSD.Fs.PipeBuf
import OxideBSD.Fs.SysvMsgRun
import OxideBSD.Fs.SysvSemRange
import OxideBSD.Fs.SysvShm
import OxideBSD.Fs.Transfer
import OxideBSD.Kern.Flock
import OxideBSD.Kern.LocalCollect
import OxideBSD.Kern.LocalNames
import OxideBSD.Kern.LocalStream
import OxideBSD.Kern.SocketSend
import OxideBSD.Kern.UioRun
import OxideBSD.Memory.Brk
import OxideBSD.Memory.PageCache
import OxideBSD.Netinet.TcpFin
import OxideBSD.Oxfs.FileWrite
import OxideBSD.Part.RoundTrip
import OxideBSD.Process.Exec
import OxideBSD.Process.Futex
import OxideBSD.Process.SignalChoice
import OxideBSD.Process.SignalGroup
import OxideBSD.Sh.Pipeline
import OxideBSD.Tmpfs.Files
import OxideBSD.Tty.Wait
import OxideBSD.Vfs.Coherence
import OxideBSD.Vfs.DirTree
import OxideBSD.Vfs.NameiRefs
import OxideBSD.Vfs.Vnode
import OxideBSD.Memory.AddressSpace
import OxideBSD.Memory.Cow
