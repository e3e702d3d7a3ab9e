import Lwext4.JbdDescriptor
import Lwext4.BallocRun
import Lwext4.ExtentRemoveExact
import Lwext4.JbdRevoke
import Lwext4.DirMap
import Lwext4.Lib.Packed
import Lwext4.BcacheSim
import Lwext4.JbdTail
import Lwext4.XattrMap
import Lwext4.IallocRun
import Lwext4.DirList
import Lwext4.MkfsExact
import Lwext4.MkfsCopies
import Lwext4.VfsWalk
import Lwext4.ExtentConvert
import Lwext4.ExtentNext
import Lwext4.ExtentFail
import Lwext4.JbdBounds
import Lwext4.JbdScan
import Lwext4.ExtentBounds
import Lwext4.XattrShare
import Lwext4.BitmapFind
import Lwext4.AddrConvert
import Lwext4.BcacheInval
import Lwext4.IallocLoop
import Lwext4.BallocBatch
import Lwext4.BlockBytes
import Lwext4.JbdEnds
import Lwext4.JbdCsum
import Lwext4.IndirectExact
import Lwext4.FwriteExact
import Lwext4.Fread
import Lwext4.Mount
import Lwext4.VfsResolve
import Lwext4.BcacheLoss
import Lwext4.Fremove
import Lwext4.VfsCreate
import Lwext4.DirBounds
import Lwext4.DirIdxFind
import Lwext4.DirIdxLeaf
import Lwext4.DirIdxNode
import Lwext4.BitmapFree
import Lwext4.XattrName
import Lwext4.XattrEdit
import Lwext4.XattrBounds
import Lwext4.XattrFail
import Lwext4.InodeField
import Lwext4.Mbr
import Lwext4.VfsRun
import Lwext4.JbdReplay
import Lwext4.IndirectLife
import Lwext4.ExtentLife
import Lwext4.VolumeRun
