import Coremu.Bios.E820
import Coremu.Core.Duty
import Coremu.Core.Halt
import Coremu.Core.Identity
import Coremu.Core.Signal
import Coremu.Core.Startup
import Coremu.Intr.GetIntr
import Coremu.Intr.Size
import Coremu.LockQueue.Robust
import Coremu.Malloc
import Coremu.MsQueue.Heap
import Coremu.MsQueue.Mask
import Coremu.MsQueue.Robust
import Coremu.MsQueue.Tail
import Coremu.System.Drain
import Coremu.System.Heap
import Coremu.System.Wakeup
import Coremu.Utils
