import Spotlight.Super
import Spotlight.SortedSearch
import Spotlight.Extents
import Spotlight.ExtentLookup
import Spotlight.InodeMap
import Spotlight.OpRead
import Spotlight.ReadSlices
import Spotlight.DoublyLinked
import Spotlight.Heap
import Spotlight.Lru
import Spotlight.XzCache
import Spotlight.XzLru
import Spotlight.Circular
import Spotlight.Gzip
import Spotlight.XzRead
import Spotlight.AccessPoints
import Spotlight.GzipIndex
import Spotlight.GzipBuild
import Spotlight.StoredInflate
import Spotlight.GzipRead
import Spotlight.GzipCanonical
import Spotlight.GzipWindow
import Spotlight.GzipExact
import Spotlight.XzRecency
import Spotlight.XzCount
import Spotlight.IndirectBlocks
import Spotlight.Lzma
import Spotlight.XzFooter
import Spotlight.XzIndexes
import Spotlight.XzBlock
import Spotlight.Dcache
import Spotlight.DcacheThreads
import Spotlight.Directory
import Spotlight.PathLookup
import Spotlight.PathCache
import Spotlight.Records
import Spotlight.Dentries
import Spotlight.PathResolve
import Spotlight.PathEnds
import Spotlight.DcacheRuns
import Spotlight.Readdir
import Spotlight.FirstRead
import Spotlight.ListingLookup
import Spotlight.Readlink
import Spotlight.Loops
import Spotlight.Scans
import Spotlight.ScanLimits
import Spotlight.AlignedRead
import Spotlight.ExtentChain
import Spotlight.InodeTable
import Spotlight.ExtentBounds
import Spotlight.GzipFree
import Spotlight.XzAlloc
import Spotlight.GzipSafe
import Spotlight.DiskPrograms
import Spotlight.DiskImages
import Spotlight.ReadLayer
import Spotlight.ReaderChoice
import Spotlight.ReadLives
import Spotlight.FuseOps
import Spotlight.MountedImage
import Spotlight.ReadThreads
import Spotlight.GzipSeek
import Spotlight.SequentialReads
import Spotlight.XzWorkingSet
import Spotlight.DcacheSize
import Spotlight.XzRefine
