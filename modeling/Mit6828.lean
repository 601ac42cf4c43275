import Mit6828.Kern.FailureAtomicity
import Mit6828.Kern.WriteCapability
import Mit6828.Kern.EnvIds
import Mit6828.Kern.Console
import Mit6828.Kern.CurrentEnv
import Mit6828.Kern.RoundRobin
import Mit6828.Kern.Ipc
import Mit6828.Kern.IpcPage
import Mit6828.Kern.PageFault
import Mit6828.Kern.UserPointers
import Mit6828.Lib.PfentrySpec
import Mit6828.Lib.ForkSpec
import Mit6828.Lib.FsipcBuf
import Mit6828.Lib.PipeSpec
import Mit6828.Lib.PipeClosedSpec
import Mit6828.Lib.Sockets
import Mit6828.Lib.Readline
import Mit6828.Lib.Memmove
import Mit6828.Lib.Printfmt
import Mit6828.Lib.FsipcSpec
import Mit6828.Fs.OpenFileSpec
import Mit6828.Fs.RequestPage
import Mit6828.Fs.GetBlock
import Mit6828.Fs.FsformatImage
import Mit6828.Kern.E1000Spec
import Mit6828.Kern.PageCalls
import Mit6828.Net.Mailbox
import Mit6828.Net.RequestBuffers
import Mit6828.Net.InputPage
import Mit6828.Kern.Privilege
import Mit6828.Lib.MallocRuns
import Mit6828.Lib.LoadersAgree
import Mit6828.Homework.Barrier
import Mit6828.Homework.HashTable
import Mit6828.Xv6.Log
import Mit6828.User.Descriptors
import Mit6828.User.Sh
import Mit6828.Xv6.Alarm
import Mit6828.Xv6.LazyAlloc
import Mit6828.Xv6.Filewrite
import Mit6828.Xv6.Itrunc
