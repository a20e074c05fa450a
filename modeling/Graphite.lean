import Graphite.BigEndian
import Graphite.Types
import Graphite.BitStream
import Graphite.BitPacker
import Graphite.Delta
import Graphite.FramedLog
import Graphite.Wal
import Graphite.WalRecovery
import Graphite.GuardedRuns
import Graphite.WalReplay
import Graphite.WalFaults
import Graphite.BitFlip
import Graphite.WalDamage
import Graphite.Platform
import Graphite.Bloom
import Graphite.SymbolDictionary
import Graphite.Columns
import Graphite.SsTable
import Graphite.SsTablePruning
import Graphite.SsTableFormat
import Graphite.SsTableDataBlock
import Graphite.KeyedRows
import Graphite.LockProgram
import Graphite.CrashPoints
import Graphite.TableFiles
import Graphite.Interleaving
import Graphite.Lsm
import Graphite.LsmCalls
import Graphite.LsmLocks
import Graphite.LsmReads
import Graphite.LsmFlush
import Graphite.LsmLookups
import Graphite.LsmVisibility
import Graphite.LsmReplicated
import Graphite.LsmAtomicity
import Graphite.LsmCrash
import Graphite.LsmTrace
import Graphite.LsmDurability
import Graphite.SkipList
import Graphite.Compaction
import Graphite.LeveledVersions
import Graphite.CompactionVersions
import Graphite.LinkedChain
import Graphite.SkipListNodes
import Graphite.SkipListMap
import Graphite.SkipListRuns
import Graphite.StreamMerge
import Graphite.ScanIter
import Graphite.ScanOrder
import Graphite.CompactionSteps
import Graphite.TreeRuns
import Graphite.SymbolPushdown
import Graphite.LsmReopen
import Graphite.WalSequence
import Graphite.LockWaits
import Graphite.LsmLockOrder
import Graphite.LockedThreads
import Graphite.LsmSameOrder
import Graphite.SymbolIds
import Graphite.VolumeColumn
import Graphite.PriceColumn
import Graphite.SortedPages
import Graphite.WalPages
import Graphite.LsmBulkInserts
import Graphite.CompactionPartition
import Graphite.DoublyLinked
import Graphite.BlockCache
import Graphite.LruMap
import Graphite.BlockCacheLinks
import Graphite.BlockCacheInvariant
import Graphite.BlockCacheLru
import Graphite.TableCache
import Graphite.TableCacheRuns
import Graphite.RoundToEven
import Graphite.Binary64
import Graphite.PriceLoss
import Graphite.LsmDeliveries
import Graphite.F64Text
import Graphite.GqlLexer
import Graphite.GqlTokens
import Graphite.GqlWords
import Graphite.Recognizer
import Graphite.GqlParser
import Graphite.GqlGrammar
import Graphite.GqlPrinting
import Graphite.GqlBounds
import Graphite.GqlExecutor
import Graphite.GqlRange
import Graphite.DeltaDamage
import Graphite.ColumnDamage
import Graphite.DictionaryMetadata
import Graphite.PackedWidths
import Graphite.GqlFilter
import Graphite.BloomStorage
import Graphite.TableDamage
import Graphite.BloomSizing
import Graphite.BloomProbes
import Graphite.GqlBuckets
import Graphite.GqlAggregates
import Graphite.ColdTier
import Graphite.CompactionEvents
import Graphite.TableNames
import Graphite.LevelSizes
import Graphite.ReplicaFiles
import Graphite.ReplicaRestart
import Graphite.CachedQueries
import Graphite.CacheMisses
import Graphite.CacheRuns
import Graphite.CompactionCrash
import Graphite.LogShipping
import Graphite.PrimaryStream
import Graphite.ReplicaPulls
import Graphite.Server
import Graphite.ReplicaPushes
import Graphite.NamedStore
import Graphite.ReplicaCopies
import Graphite.GrowingState
import Graphite.Provenance
import Graphite.PointLookups
import Graphite.StreamScan
import Graphite.ReplicaProgress
import Graphite.ColdRestores
import Graphite.Sessions
import Graphite.ServerRuns
