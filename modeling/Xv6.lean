import Xv6.Bcache.Demand
import Xv6.Console.Lines
import Xv6.Fs.Bitmap
import Xv6.Fs.Directory
import Xv6.Fs.Fault
import Xv6.Fs.Open
import Xv6.Fs.Read
import Xv6.Ftable.Once
import Xv6.Itable.Agree
import Xv6.Log.Reserve
import Xv6.Mkfs.Agree
import Xv6.Pipe.Transfer
import Xv6.Printf
import Xv6.Proc.Reap
import Xv6.Sched.Kill
import Xv6.Sched.Sections
import Xv6.Sched.Wakeup
import Xv6.Sleeplock
import Xv6.Spinlock.Interrupts
import Xv6.Umalloc.Malloc
import Xv6.User.Grep
import Xv6.User.Memmove
import Xv6.User.Ok
import Xv6.User.Sh
import Xv6.Virtio.Protocol
import Xv6.Vm.Copyinstr
import Xv6.Vm.Fork
import Xv6.Vm.Replace
