import Xv6.Vm.Sbrk
import Xv6.Vm.Lazy
import Xv6.Vm.OutOfMemory
import Xv6.Vm.Isolation
import Xv6.Log.Atomic
import Xv6.Bio.Coherence
import Xv6.Bio.Capacity
import Xv6.Log.Admission
import Xv6.Fs.Dangling
import Xv6.Proc.Lifecycle
import Xv6.Proc.Mp
import Xv6.Pipe.Fifo
import Xv6.Sysfile.Exact
import Xv6.Proc.Wakeup
import Xv6.Ide.Order
import Xv6.Console.LineDiscipline
import Xv6.User.Heap
import Xv6.User.Memmove
import Xv6.Sh.Correct
import Xv6.Sysfile.Path
import Xv6.Vm.Copyout
import Xv6.Fs.Filewrite
import Xv6.Fs.Mkfs
