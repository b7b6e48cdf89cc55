import Xv6.Sched.Balance
import Xv6.Lock.Plock
import Xv6.Lock.Rwlock
import Xv6.Lock.Sleeplock
import Xv6.Console.Undo
import Xv6.Console.Paste
import Xv6.Console.Words
import Xv6.Smp.Wakeup
import Xv6.Smp.Mp
import Xv6.Sched.RoundRobin
import Xv6.Wal.Whole
import Xv6.Shell.Window
import Xv6.Shell.Terminate
import Xv6.Cache.Buf
import Xv6.Cache.Iput
import Xv6.Ipc.Wakeup
import Xv6.Fs.Walk
import Xv6.Mkfs.Holes
import Xv6.Content.Agree
import Xv6.Exec.Outcome
import Xv6.Vm.Isolate
import Xv6.User.Grep
import Xv6.User.FindSum
import Xv6.Lib.Memmove
import Xv6.Lock.Pushcli
