import Newsys.Bfs.RoundTrip
import Newsys.Calc
import Newsys.Fsck.Bmap
import Newsys.Kern.Attach
import Newsys.Kern.Counts
import Newsys.Kern.Modules
import Newsys.Kern.Mount
import Newsys.Kern.Mqueue
import Newsys.Kern.Mutex
import Newsys.Kern.Pageinit
import Newsys.Kern.PipeCalls
import Newsys.Kern.Poll
import Newsys.Kern.Procs
import Newsys.Kern.PtyCalls
import Newsys.Kern.PtyLife
import Newsys.Kern.Reserve
import Newsys.Kern.Ualarm
import Newsys.Kern.Umem
import Newsys.Libc.Bsearch
import Newsys.Libc.Deliver
import Newsys.Libc.Environ
import Newsys.Libc.Erange
import Newsys.Libc.Fgets
import Newsys.Libc.Flush
import Newsys.Libc.Intrusive
import Newsys.Libc.Mkcanon
import Newsys.Libc.Qsort
import Newsys.Libc.Regcomp
import Newsys.Libc.Ringbuf
import Newsys.Libc.Scroll
import Newsys.Libc.Secret
import Newsys.Libc.Sha
import Newsys.Libc.Strftime
import Newsys.Natfs.Descriptor
import Newsys.Natfs.Flag
import Newsys.Natfs.ReadOnly
import Newsys.Natfs.Reclaim
import Newsys.Natfs.Search
import Newsys.Natfs.Translate
import Newsys.Sh.Comm
import Newsys.Sh.Quoting
import Newsys.Sh.Skip
import Newsys.Sh.Subst
import Newsys.Tar.Open
import Newsys.Tar.Spath
import Newsys.Umake
import Newsys.Umake.Load
import Newsys.Wingui.Clip
import Newsys.Wingui.Damage
import Newsys.Wingui.Edbox
import Newsys.Wingui.Focus
import Newsys.Wingui.Glyphs
import Newsys.Wingui.Partition
import Newsys.Wingui.Stacking
import Newsys.Sysload
