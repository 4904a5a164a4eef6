import Xv6.Lib.Affine
import Xv6.Lib.Count
import Xv6.Lib.Run
import Xv6.Lib.Loop
import Xv6.Lib.Bytes
import Xv6.Lib.Crash
import Xv6.Lib.Ring
import Xv6.Lib.Wp
import Xv6.Lib.Fifo
import Xv6.Lib.SlotMap
import Xv6.Lib.Monitor
import Xv6.Proc.Basic
import Xv6.Proc.Table
import Xv6.Proc.Clean
import Xv6.Proc.Family
import Xv6.Proc.Wait
import Xv6.Proc.Reap
import Xv6.Sched.Lottery
import Xv6.Sched.Share
import Xv6.Sched.Cpus
import Xv6.Sched.WorkConservation
import Xv6.Sched.Switch
import Xv6.Sched.Exclusive
import Xv6.Sched.Interrupts
import Xv6.Disk.Block
import Xv6.Bio.Cache
import Xv6.Bio.Structure
import Xv6.Bio.Effect
import Xv6.Log.Basic
import Xv6.Log.Atomic
import Xv6.Log.System
import Xv6.Log.Group
import Xv6.Log.Sections
import Xv6.Log.Reservation
import Xv6.Log.Coherence
import Xv6.Log.Commit
import Xv6.Log.CommitStep
import Xv6.Log.GroupCommit
import Xv6.Log.Buffers
import Xv6.Log.Writei
import Xv6.Vm.Basic
import Xv6.Vm.PageTable
import Xv6.Vm.Own
import Xv6.Vm.Tables
import Xv6.Vm.Walk
import Xv6.Vm.Resize
import Xv6.Vm.Alloc
import Xv6.Vm.Free
import Xv6.Vm.Proc
import Xv6.Vm.Exec
import Xv6.Vm.Space
import Xv6.Vm.Ops
import Xv6.Vm.Fork
import Xv6.Vm.Load
import Xv6.Vm.Segments
import Xv6.Vm.ExecSpec
import Xv6.Vm.ExecPanic
import Xv6.Vm.Sys
import Xv6.Vm.Effect
import Xv6.Vm.Guard
import Xv6.Vm.Break
import Xv6.Vm.Ownership
import Xv6.File.Table
import Xv6.Fs.Basic
import Xv6.Fs.Inode
import Xv6.Fs.Dir
import Xv6.Fs.Layout
import Xv6.Fs.Blocks
import Xv6.Fs.Ok
import Xv6.Fs.Extend
import Xv6.Fs.Content
import Xv6.Fs.Write
import Xv6.Fs.Logged
import Xv6.Fs.Arrays
import Xv6.Fs.Free
import Xv6.Fs.Table
import Xv6.Fs.Image
import Xv6.Fs.File
import Xv6.Fs.FileSpec
import Xv6.Fs.ChunkLog
import Xv6.Fs.Reclaim
import Xv6.Fs.Runs
import Xv6.Fs.Shared
import Xv6.Fs.Names
import Xv6.Fs.DirSpec
import Xv6.Fs.DirMap
import Xv6.Pipe.Basic
import Xv6.Pipe.Fifo
import Xv6.Pipe.Wakeup
import Xv6.Ulib.Strings
import Xv6.Grep.Match
import Xv6.Grep.Lines
import Xv6.Sh.Parse
import Xv6.Sh.Tokens
import Xv6.Sh.Grammar
import Xv6.Sh.Loops
import Xv6.Sh.Correct
import Xv6.Sh.Run
import Xv6.Lib.Linked
import Xv6.Umalloc.Basic
import Xv6.Umalloc.Blocks
import Xv6.Umalloc.Free
import Xv6.Umalloc.Malloc
import Xv6.Umalloc.Runs
import Xv6.Umalloc.Kernel
import Xv6.Console.Basic
import Xv6.Console.Line
import Xv6.Console.Deliver
import Xv6.Lock.Sleep
import Xv6.Uart.Transmit
import Xv6.Log.Wakeup
import Xv6.Lib.Holders
import Xv6.Virtio.Basic
import Xv6.Virtio.Protocol
import Xv6.Virtio.Steps
import Xv6.Virtio.Runs
import Xv6.Vm.AllOrNothing
import Xv6.Vm.Refine
import Xv6.Vm.Strings
import Xv6.Vm.Copies
import Xv6.Printf.Printint
import Xv6.Ulib.Memmove
