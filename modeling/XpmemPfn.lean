import XpmemPfn.Geometry
import XpmemPfn.RecallCounter
import XpmemPfn.RecallExclusion
import XpmemPfn.RecallWakeup
import XpmemPfn.RemapPages
import XpmemPfn.UnpinPages
import XpmemPfn.VaddrToPfn
import XpmemPfn.SavedMask
import XpmemPfn.RecallFlags
import XpmemPfn.RecallWalk
import XpmemPfn.PinPages
import XpmemPfn.PinAccounting
import XpmemPfn.Partition
