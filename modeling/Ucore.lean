import Ucore.Proc.Init
import Ucore.Proc.Fair
import Ucore.Lib.Ring
import Ucore.Lib.Round
import Ucore.Slob.Theorems
import Ucore.Lib.Runs
import Ucore.Mm.System
import Ucore.Lib.Count
import Ucore.Lib.Log
import Ucore.Pmm.FirstFit
import Ucore.Mm.Ranges
import Ucore.Slob.Order
import Ucore.Mm.Cow
import Ucore.Mm.Dup
import Ucore.Mm.Release
import Ucore.Mm.Map
import Ucore.Slob.Arena
import Ucore.Mm.PageInit
import Ucore.Debug.Kmonitor
import Ucore.Driver.Extract
import Ucore.Mm.Eager
import Ucore.Libs.Snprintf
import Ucore.Mm.Refine
import Ucore.Mm.Runs
import Ucore.Mm.Reachable
import Ucore.Mm.Theorems
import Ucore.Mm.Wait
import Ucore.Trap.Thread
import Ucore.Mm.Reclaim
import Ucore.Mm.Args
import Ucore.Mm.GiveUp
