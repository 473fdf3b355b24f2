import Xv6.Bio.Lru
import Xv6.Bio.Refinement
import Xv6.Blocks.Bitmap
import Xv6.Blocks.SharedOffset
import Xv6.Console.LineDiscipline
import Xv6.E1000.Interrupt
import Xv6.E1000.TransmitOrder
import Xv6.Ftable.References
import Xv6.Inode.Coherence
import Xv6.Log.Reservation
import Xv6.Net.Bounds
import Xv6.Net.SocketPages
import Xv6.Net.UserLength
import Xv6.Pipe.FailedRead
import Xv6.Pipe.Runs
import Xv6.Proc.Interrupts
import Xv6.Proc.Processes
import Xv6.Proc.Wakeup
import Xv6.Shell.Lines
import Xv6.Sysfile.DirectoryTree
import Xv6.Sysfile.Resolution
import Xv6.User.Grep
import Xv6.User.Ulib
import Xv6.User.Umalloc
