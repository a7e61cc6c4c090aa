import Xv6.Lib.Outcome
import Xv6.Lib.Erase
import Xv6.Lib.RefCount
import Xv6.Lib.Pool
import Xv6.Lib.Follow
import Xv6.Lib.Script
import Xv6.Lib.Slots
import Xv6.Vm.Riscv
import Xv6.Vm.Kalloc
import Xv6.Vm.PageTable
import Xv6.Vm.Exec
import Xv6.Vm.View
import Xv6.Vm.Base
import Xv6.Vm.WalkTheorems
import Xv6.Vm.UnmapTheorems
import Xv6.Vm.UserMemory
import Xv6.Vm.UvmTheorems
import Xv6.Vm.CowTheorems
import Xv6.Vm.CopyTheorems
import Xv6.Vm.ExecTheorems
import Xv6.Vm.ImageTheorems
import Xv6.Proc.Table
import Xv6.Sys.Kernel
import Xv6.Sys.Step
import Xv6.Sys.Private
import Xv6.Sys.Invariant
import Xv6.Sys.ProcTheorems
import Xv6.Sys.CallTheorems
import Xv6.Sys.FaultTheorems
import Xv6.Sys.BootTheorems
import Xv6.Sys.StepTheorems
import Xv6.Sys.Safety
import Xv6.Sys.Copying
import Xv6.Sys.Paging
import Xv6.Sys.Image
import Xv6.Fs.Log
import Xv6.Fs.LogTheorems
import Xv6.Fs.Disk
import Xv6.Fs.CacheTheorems
import Xv6.Fs.CommitInvariant
import Xv6.Fs.OperationTheorems
import Xv6.Fs.CommitTheorems
import Xv6.Fs.RecoveryTheorems
import Xv6.Fs.Sync
import Xv6.Proc.Wait
import Xv6.Proc.WaitInvariant
import Xv6.Proc.ForkTheorems
import Xv6.Proc.ExitTheorems
import Xv6.Proc.WaitTheorems
import Xv6.Proc.KillTheorems
import Xv6.Proc.Pids
import Xv6.Proc.Moves
import Xv6.Sched.Round
import Xv6.Sched.AgingTheorems
import Xv6.Sched.Snapshots
import Xv6.Sched.Fairness
import Xv6.Files.Inode
import Xv6.Files.Dir
import Xv6.Files.Calls
import Xv6.Files.BlockTheorems
import Xv6.Files.ContentTheorems
import Xv6.Files.TableTheorems
import Xv6.Files.RoomTheorems
import Xv6.Files.EntryTheorems
import Xv6.Files.DirTheorems
import Xv6.Files.Tree
import Xv6.Files.Walk
import Xv6.Files.LinkTheorems
import Xv6.Files.CreateTheorems
import Xv6.Files.FileTheorems
import Xv6.Files.Volume
import Xv6.Files.Safety
import Xv6.Files.DirMap
import Xv6.Files.Paths
import Xv6.Files.Undone
import Xv6.Files.Reclaim
import Xv6.Files.Logging
import Xv6.Files.Reading
import Xv6.Files.Budget
import Xv6.Files.CutShort
import Xv6.Files.Shared
import Xv6.Files.LinkRange
import Xv6.Kern.Calls
import Xv6.Kern.ExecTheorems
import Xv6.Kern.Failures
import Xv6.Lib.Run
import Xv6.Lib.Monitor
import Xv6.Ipc.Pipe
import Xv6.Ipc.PipeTheorems
import Xv6.Lib.Ring
import Xv6.Virtio.Disk
import Xv6.Virtio.DiskInvariant
import Xv6.Virtio.DiskTheorems
import Xv6.Virtio.Protocol
import Xv6.Mkfs.Mkfs
import Xv6.Mkfs.FormatTheorems
import Xv6.Mkfs.AppendTheorems
import Xv6.Mkfs.ImageTheorems
import Xv6.User.Match
import Xv6.User.Ulib
import Xv6.User.Grep
import Xv6.User.Printf
