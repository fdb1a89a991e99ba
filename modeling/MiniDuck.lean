import MiniDuck.TransactionManager
import MiniDuck.MemoryCharge
import MiniDuck.DeleteRuns
import MiniDuck.DeleteAtomic
import MiniDuck.BlockManager
import MiniDuck.MetadataManager
import MiniDuck.UpdateConflicts
import MiniDuck.UpdateFetch
import MiniDuck.IndexRuns
import MiniDuck.SortKey
import MiniDuck.StringStatsRuns
import MiniDuck.MergeDestruction
import MiniDuck.FilterSound
import MiniDuck.DeleteCheckpoint
import MiniDuck.ArtKey
import MiniDuck.AllocatorRuns
import MiniDuck.SortKeyDecode
import MiniDuck.StringCompression
import MiniDuck.CsvRoundTrip
import MiniDuck.StorageLock
import MiniDuck.FreeListReading
import MiniDuck.FailedCommit
import MiniDuck.BitpackingRoundTrip
import MiniDuck.RleFilter
import MiniDuck.Interval
import MiniDuck.MonotonePreimage
import MiniDuck.PredicateFactoring
import MiniDuck.CsvScanStates
import MiniDuck.Glob
import MiniDuck.TemporaryFileManager
import MiniDuck.ILike
import MiniDuck.ComparisonSimplification
import MiniDuck.Sequence
import MiniDuck.BitPosition
import MiniDuck.BignumDecimal
import MiniDuck.PartialBlockSystem
import MiniDuck.ValiditySegment
import MiniDuck.DependencyLinks
import MiniDuck.HugeIntAccess
import MiniDuck.EncodingUtil
import MiniDuck.IndexReplay
import MiniDuck.StringSplit
