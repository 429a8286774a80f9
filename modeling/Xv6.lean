import Xv6.Stride.Least
import Xv6.Exit.Frame
import Xv6.PgdirRef.Leak
import Xv6.PgdirRef.Free
import Xv6.Vm.Copyout
import Xv6.Pointers
import Xv6.Threads.Reap
import Xv6.Log.Admission
import Xv6.Log.Atomic
import Xv6.Fs.Filewrite
import Xv6.Mkfs.Root
import Xv6.Pipe
import Xv6.Console
import Xv6.Umalloc
import Xv6.Bio
import Xv6.Files.Run
import Xv6.Stride.Group
import Xv6.Share
import Xv6.Stride.Heap
import Xv6.Scan
import Xv6.Wait
import Xv6.Stride.Admission
import Xv6.Threads.Create
import Xv6.Smp.Join
import Xv6.Vm.Growproc
import Xv6.Fork
import Xv6.Grep
import Xv6.ProjShell
import Xv6.Spinlock
