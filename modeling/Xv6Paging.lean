import Xv6Paging.Dev.Console
import Xv6Paging.Dev.Requests
import Xv6Paging.Dev.Uart
import Xv6Paging.Disk.SharedOffset
import Xv6Paging.Fs.Crash
import Xv6Paging.Fs.Decimal
import Xv6Paging.Fs.Descriptors
import Xv6Paging.Fs.FileOnDisk
import Xv6Paging.Fs.InodeTable
import Xv6Paging.Grep.Lines
import Xv6Paging.Heap.Allocation
import Xv6Paging.Heap.Safety
import Xv6Paging.Ipc.PipeRead
import Xv6Paging.Ipc.Wakeups
import Xv6Paging.Lazy.Growth
import Xv6Paging.Log.Reserve
import Xv6Paging.Memory.Access
import Xv6Paging.Paging.Faults
import Xv6Paging.Paging.Teardown
import Xv6Paging.Proc.Arguments
import Xv6Paging.Shell.Grammar
import Xv6Paging.Vm.Age
import Xv6Paging.Vm.Kmem
import Xv6Paging.Vm.PageMap
import Xv6Paging.Vm.Queue
