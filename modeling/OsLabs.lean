import OsLabs.Buffer.BufferDelivery
import OsLabs.Buffer.BufferLifetime
import OsLabs.Cache.CacheRefines
import OsLabs.Canvas.CanvasWrite
import OsLabs.Exec.ExecPgcnt
import OsLabs.Files.FilesCounted
import OsLabs.Foundation.SlotMap
import OsLabs.Fs.FsDir
import OsLabs.Fs.FsDirMap
import OsLabs.Fs.FsFile
import OsLabs.Fs.FsIput
import OsLabs.Fs.FsNamex
import OsLabs.Fs.FsPath
import OsLabs.Grep.GrepSplit
import OsLabs.Histogram.HistogramCount
import OsLabs.Ipc.ConsoleDiscipline
import OsLabs.Ipc.KillWindow
import OsLabs.Locks.LocksSleepSafe
import OsLabs.Log.LogCrash
import OsLabs.Log.LogReservation
import OsLabs.Paging.PagingCapacity
import OsLabs.Paging.PagingFifo
import OsLabs.Paging.PagingInput
import OsLabs.Paging.PagingLru
import OsLabs.Paging.PagingTables
import OsLabs.Proc.ProcKill
import OsLabs.Proc.ProcOrphans
import OsLabs.Proc.ProcPanics
import OsLabs.Proc.ProcReads
import OsLabs.Shell.ShellOrder
import OsLabs.Strings.StringsMemmove
import OsLabs.Syscall.SyscallArgs
import OsLabs.Umalloc.UmallocRuns
import OsLabs.Umalloc.UmallocSizes
import OsLabs.Uthread.UthreadContext
import OsLabs.Uthread.UthreadFairness
import OsLabs.Uthread.UthreadTable
import OsLabs.Vm.VmDealloc
import OsLabs.Wordstack.WordstackPrint
