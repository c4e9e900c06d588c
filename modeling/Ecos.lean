import Ecos.Sync.MutexRank
import Ecos.Sync.Inversion
import Ecos.Sync.Semaphore
import Ecos.Sync.MboxSafety
import Ecos.Sync.MqueueDelivery
import Ecos.Clock.Delivery
import Ecos.Intr.Dsr
import Ecos.Kernel.SmpSafety
import Ecos.Memalloc.Malloc
import Ecos.Memalloc.Joined
import Ecos.Memalloc.SepmetaResizeSafety
import Ecos.Memalloc.MfixSafety
import Ecos.Memalloc.Mempolt2Safety
import Ecos.Ramfs.Twins
import Ecos.Ramfs.DirentRuns
import Ecos.Fileio.MountSafety
import Ecos.Redboot.Tftp
import Ecos.Redboot.XyzModemSafety
import Ecos.Fileio.SelectSafety
import Ecos.Fileio.FdRuns
import Ecos.Flash.Init
import Ecos.Flash.Locks
import Ecos.Redboot.TcpStream
import Ecos.Redboot.TcpClose
import Ecos.Redboot.FconfigRuns
import Ecos.Serial.RxFlow
import Ecos.Serial.Wakeups
import Ecos.Libc.StreamReads
import Ecos.Cdl.InferenceSafety
import Ecos.Cdl.TransactOwned
import Ecos.Clock.Phase
import Ecos.Clock.Converter
import Ecos.Kernel.Timeslice
import Ecos.Kernel.QueueOrder
import Ecos.Posix.MqtabSafety
import Ecos.Posix.PthreadSafety
import Ecos.Posix.SignalSafety
import Ecos.Fat.Stamps
import Ecos.Services.BlibSafety
import Ecos.Fat.TentrySafety
import Ecos.Redboot.Parse
import Ecos.Redboot.Bootp
import Ecos.Redboot.Elf
import Ecos.Redboot.Srec
import Ecos.Redboot.FisBlank
import Ecos.Redboot.FisChunksSafety
import Ecos.Fileio.InocacheSafety
import Ecos.Fat.InitExact
import Ecos.Libc.LocalTime
import Ecos.Shell.ShelltaskSafety
import Ecos.Cdl.IntegerSafety
import Ecos.Memalloc.MvarHistory
import Ecos.Services.BlibTwins
