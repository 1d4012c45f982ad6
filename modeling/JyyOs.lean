import JyyOs.Pmm.SummaryRun
import JyyOs.Pmm.Coalesce
import JyyOs.Pmm.SlabSections
import JyyOs.Pmm.Slab
import JyyOs.Pmm.Addresses
import JyyOs.Pmm.SlabLock
import JyyOs.Pmm.KfreeRun
import JyyOs.Library.LinkedList
import JyyOs.Kmt.Semaphore
import JyyOs.Kmt.Contexts
import JyyOs.Library.Prefix
import JyyOs.Uproc.LockDiscipline
import JyyOs.Uproc.Mirror
import JyyOs.Uproc.Pids
import JyyOs.Uproc.Unmap
import JyyOs.Uproc.ExitNotice
import JyyOs.Uproc.Counts
import JyyOs.Uproc.Leaks
import JyyOs.Kmt.Spinlock
import JyyOs.Dev.Input
import JyyOs.Dev.Tty
import JyyOs.Uproc.VmaFork
import JyyOs.Uproc.FreshPage
import JyyOs.Uproc.VmaFind
import JyyOs.Uproc.Sleep
import JyyOs.Kmt.Waiters
import JyyOs.Dev.Sd
import JyyOs.Dev.ScreenRun
import JyyOs.Os.Trap
import JyyOs.Pmm.Restore
import JyyOs.Pmm.PageFill
import JyyOs.Uproc.CowFork
import JyyOs.Uproc.Protection
import JyyOs.Uproc.CowTable
import JyyOs.Uproc.LockExit
import JyyOs.Klib.String
import JyyOs.Klib.Stdio
import JyyOs.Klib.Format
import JyyOs.Frecov.DirHandover
import JyyOs.Frecov.Recovery
import JyyOs.Fatree.Walk
import JyyOs.Plcs.Agrees
import JyyOs.Plcs.Serial
import JyyOs.Pstree.Print
import JyyOs.Sperf.Credits
import JyyOs.Sperf.Accounts
import JyyOs.Uproc.Teardown
import JyyOs.Uproc.FreedNodes
import JyyOs.Uproc.Isolation
import JyyOs.Vme.System
import JyyOs.Boot.Loader
import JyyOs.Dev.Consoles
import JyyOs.Dev.Typing
import JyyOs.Klib.Division
import JyyOs.Klib.BitCounts
import JyyOs.Uproc.PrivateMemory
