import Isl.Lib.Run
import Isl.Lib.RefCount
import Isl.Emu.Memory
import Isl.Emu.MemoryInv
import Isl.Emu.MemoryFrame
import Isl.Emu.CopyOnWrite
import Isl.Emu.MemoryChanges
import Isl.Emu.Tlb
import Isl.Emu.CpuRun
import Isl.Lib.Loop
import Isl.Lib.Components
import Isl.Fs.Path
import Isl.Fs.PathWalk
import Isl.Fs.PathBounds
import Isl.Fs.PathResolve
import Isl.Fs.Chroot
import Isl.Lib.Layout
import Isl.Emu.CpuState
import Isl.Emu.GuestMem
import Isl.Kernel.Signal
import Isl.Kernel.SignalReturn
import Isl.Lib.Links
import Isl.Kernel.Process
import Isl.Kernel.ProcessInv
import Isl.Kernel.TaskTree
import Isl.Kernel.ProcessGroup
import Isl.Kernel.SignalMask
import Isl.Emu.MemoryRefs
import Isl.Kernel.PidTable
import Isl.Kernel.Wait
import Isl.Lib.Avoids
import Isl.Kernel.CallTables
import Isl.Lib.Prog
import Isl.Kernel.Mmap
import Isl.Kernel.Brk
import Isl.Lib.Pool
import Isl.Fs.Fd
import Isl.Kernel.ProcessLists
import Isl.Kernel.Fork
import Isl.Emu.MemoryAlias
import Isl.Kernel.ThreadAccess
import Isl.Kernel.Threads
import Isl.Lib.PoolTotal
import Isl.Fs.FdCounts
import Isl.Lib.Owners
import Isl.Fs.FdRuns
import Isl.Lib.Matched
import Isl.Kernel.SignalHistory
import Isl.Fs.Mount
import Isl.Fs.MountRefs
import Isl.Util.Bits
import Isl.Fs.Cloexec
import Isl.Fs.Tty
import Isl.Fs.TtyRaw
import Isl.Lib.Lines
import Isl.Fs.TtyCanon
import Isl.Lib.FileTree
import Isl.Lib.Sql
import Isl.Fs.Fake
import Isl.Fs.FakeFiles
import Isl.Fs.FakeStats
import Isl.Fs.FakePaths
import Isl.Fs.FakeRebuild
import Isl.Kernel.Futex
import Isl.Kernel.FutexWake
import Isl.Emu.Uint128
import Isl.Emu.Float80
import Isl.Emu.Float80Double
import Isl.Fs.TtyRefs
import Isl.Lib.Exec
import Isl.Emu.MemAccess
import Isl.Emu.Modrm
import Isl.Emu.ModrmTables
import Isl.Emu.Operand
import Isl.Emu.Interp
import Isl.Emu.InterpFpu
import Isl.Emu.Decode
import Isl.Emu.Slot
import Isl.Emu.Alu
import Isl.Emu.FlagBytes
import Isl.Emu.FlagRun
import Isl.Emu.SameOperand
import Isl.Emu.Prefixes
import Isl.Emu.ShortForms
import Isl.Emu.DecodeLocal
import Isl.Emu.PrefixOrder
import Isl.Emu.FpuStack
import Isl.Emu.Fpu
import Isl.Kernel.Ids
import Isl.Kernel.Eventfd
import Isl.Kernel.Readiness
import Isl.Lib.Ring
import Isl.Kernel.Syslog
import Isl.Fs.PollWait
import Isl.Util.Timer
import Isl.Lib.LoopCycle
import Isl.Fs.PathLoops
import Isl.Kernel.MmapHint
import Isl.Kernel.Mremap
import Isl.Fs.Epoll
import Isl.Kernel.FindHole
import Isl.Fs.FdLimit
import Isl.Kernel.WaitFault
import Isl.Kernel.AltStack
import Isl.Lib.CString
import Isl.Kernel.Shebang
import Isl.Emu.TlbPages
import Isl.Emu.GuestView
import Isl.Emu.TlbAccess
import Isl.Fs.FakeCalls
import Isl.Fs.FakeTransactions
import Isl.Fs.FakeHost
import Isl.Kernel.Exec
import Isl.Kernel.ExecExits
import Isl.Emu.GuestStack
import Isl.Kernel.ExecMemory
import Isl.Kernel.ExecStack
import Isl.Kernel.ExecStart
import Isl.Emu.GuestMap
import Isl.Kernel.LoadEntry
import Isl.Fs.TtyTyping
import Isl.Fs.TtySignals
import Isl.Fs.TtyLines
import Isl.Kernel.UserString
import Isl.Fs.FdOps
import Isl.Fs.Proc
import Isl.Fs.Real
import Isl.Kernel.FileCalls
import Isl.Kernel.Seek
import Isl.Kernel.ReadVector
import Isl.Emu.MemWrite
import Isl.Kernel.CopyOut
import Isl.Fs.Dents
import Isl.Fs.ProcDir
import Isl.Fs.InstallSlot
import Isl.Fs.Sock
import Isl.Fs.SockFds
import Isl.Emu.Written
import Isl.Emu.Packed
import Isl.Lib.Ripple
import Isl.Emu.Carry
import Isl.Emu.Shift
import Isl.Lib.Truncated
import Isl.Emu.Multiply
import Isl.Emu.Divide
import Isl.Emu.BitTest
import Isl.Emu.BitScan
import Isl.Lib.Scan
import Isl.Emu.Compare
import Isl.Lib.Retry
import Isl.Emu.Restart
import Isl.Emu.PushPop
import Isl.Emu.FlagWord
import Isl.Lib.Rounding
import Isl.Emu.FloatRound
import Isl.Emu.Float80Int
import Isl.Emu.Float80Narrow
import Isl.Emu.Float80Norm
import Isl.Emu.Float80Mul
import Isl.Emu.Float80Units
import Isl.Emu.Float80Add
import Isl.Emu.Float80Order
import Isl.Emu.Float80Log
import Isl.Emu.ShiftRound
import Isl.Emu.NormalizeRange
import Isl.Kernel.SignalWait
import Isl.Kernel.FutexRefs
import Isl.Kernel.FutexCount
import Isl.Kernel.Credentials
import Isl.Fs.PollScan
import Isl.Kernel.Poll
import Isl.Kernel.Select
import Isl.Lib.Rings
import Isl.Util.List
import Isl.Fs.PollHeap
import Isl.Emu.Steady
import Isl.Emu.Protection
import Isl.Emu.Conditions
import Isl.Kernel.Printk
import Isl.Kernel.EpollWait
import Isl.Kernel.EventfdWake
import Isl.Emu.Blocks
import Isl.Fs.ProcPath
import Isl.Fs.Chdir
import Isl.Lib.LockOrder
import Isl.Kernel.Locks
import Isl.Fs.Device
import Isl.Kernel.ExecArgs
import Isl.Kernel.PlainMemory
