import ClickHouse.Lib.Bytes
import ClickHouse.Lib.Bits
import ClickHouse.Lib.Except
import ClickHouse.Common.ErrorCodes
import ClickHouse.Base.Unaligned
import ClickHouse.IO.BitHelpers
import ClickHouse.IO.BitStream
import ClickHouse.Lib.Differences
import ClickHouse.Compression.ICompressionCodec
import ClickHouse.Compression.UnalignedBytes
import ClickHouse.Compression.CodecDelta
import ClickHouse.Compression.CodecDoubleDelta
import ClickHouse.Compression.CodecGorilla
import ClickHouse.Lib.BitWindow
import ClickHouse.Lib.BitPack
import ClickHouse.Lib.HighBits
import ClickHouse.Lib.Folds
import ClickHouse.Compression.CodecT64
import ClickHouse.Compression.CodecGCD
import ClickHouse.Compression.CodecFPC
import ClickHouse.Compression.CodecMultiple
import ClickHouse.Lib.FixedDigits
import ClickHouse.Lib.FixedPoint
import ClickHouse.Base.Itoa
import ClickHouse.IO.IntText
import ClickHouse.Storages.MergeTree.MergeTreePartInfo
import ClickHouse.Lib.SortedMap
import ClickHouse.Storages.MergeTree.ActiveDataPartSet
import ClickHouse.Storages.MergeTree.OverlappingPartCovering
import ClickHouse.Lib.AssocList
import ClickHouse.Coordination.SnapshotableHashTable
import ClickHouse.Coordination.SnapshotableHashTable.Invariant
import ClickHouse.Coordination.SnapshotableHashTable.Refinement
import ClickHouse.Coordination.SnapshotableHashTable.Snapshot
import ClickHouse.Lib.PathPrefix
import ClickHouse.Common.ZooKeeper.ZooKeeperCommon
import ClickHouse.Coordination.KeeperStorage
import ClickHouse.Coordination.KeeperStorage.RemoveRecursive
import ClickHouse.Coordination.KeeperStorage.PendingChanges
import ClickHouse.IO.DecimalText
import ClickHouse.IO.WriteIntText
import ClickHouse.Common.StringUtils
import ClickHouse.IO.QuotedString
import ClickHouse.Parsers.Lexer
import ClickHouse.Parsers.ExpressionElementParsers
import ClickHouse.Common.UTF8Helpers
import ClickHouse.Common.StringSearcher
import ClickHouse.Lib.BinaryFloat
import ClickHouse.Base.DecomposedFloat
import ClickHouse.Core.AccurateComparison
import ClickHouse.Core.Range
import ClickHouse.IO.ReadBuffer
import ClickHouse.IO.VarInt
import ClickHouse.AggregateFunctions.UniquesHashSet
import ClickHouse.Core.PlainRanges
import ClickHouse.Common.DateLUTImpl
import ClickHouse.Lib.WordStream
import ClickHouse.Compression.FFOR
import ClickHouse.Lib.Regex
import ClickHouse.Common.OptimizedRegularExpression
import ClickHouse.Storages.MergeTree.KeyCondition
import ClickHouse.Lib.LinearProbing
import ClickHouse.Lib.FirstMatch
import ClickHouse.Common.Volnitsky
import ClickHouse.Lib.ProbeRebuild
import ClickHouse.AggregateFunctions.UniquesHashSet.Cells
import ClickHouse.AggregateFunctions.UniquesHashSet.Rebuild
import ClickHouse.Lib.AdaptiveSample
import ClickHouse.AggregateFunctions.UniquesHashSet.Valid
import ClickHouse.AggregateFunctions.UniquesHashSet.Canonical
import ClickHouse.Lib.Brackets
import ClickHouse.Parsers.TokenIterator
import ClickHouse.Coordination.KeeperStorage.Commit
import ClickHouse.Coordination.KeeperStorage.Preprocess
