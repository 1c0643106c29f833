import DionysOS.DataStructures.DoublyLinkedListRefinement
import DionysOS.DataStructures.QueueRefinement
import DionysOS.Tools.MkdiosfsRuns
import DionysOS.Memory.PmmChains
import DionysOS.Memory.PmmCounter
import DionysOS.Memory.PmmExact
import DionysOS.Memory.KernelPool
import DionysOS.Memory.KmallocRuns
import DionysOS.Memory.PmmPartition
import DionysOS.Filesystem.CanonicalPathRoundTrip
import DionysOS.Filesystem.RenameRemount
import DionysOS.DataStructures.Spinlock
import DionysOS.Filesystem.ChildCacheRuns
import DionysOS.Filesystem.TmpfsTreeRuns
import DionysOS.Memory.PageTeardown
import DionysOS.Scheduling.SchedulerRuns
import DionysOS.Filesystem.DiosfsGrowth
import DionysOS.Filesystem.DiosfsTakeOut
import DionysOS.DataStructures.HashTableRange
import DionysOS.DataStructures.BinaryTreeTraversal
import DionysOS.Memory.SlabConservation
import DionysOS.Filesystem.DiosfsCounts
import DionysOS.Filesystem.DiosfsBitmapRuns
import DionysOS.Tools.MkdiosfsInodes
import DionysOS.Filesystem.DiosfsInodeTable
import DionysOS.Filesystem.HandleOperations
import DionysOS.Definitions.StringCopy
import DionysOS.Filesystem.PathBounds
import DionysOS.Drivers.Nvme
import DionysOS.Drivers.Framebuffer
import DionysOS.Filesystem.TmpfsNumbers
import DionysOS.Acpi.Madt
