import RisingWave.Lib.Lex
import RisingWave.Lib.ByteCodec
import RisingWave.Lib.Prefix
import RisingWave.Lib.SortedMap
import RisingWave.Lib.Sweep
import RisingWave.Lib.Cursor
import RisingWave.Lib.Merge
import RisingWave.Lib.ByteBuf
import RisingWave.Hummock.Key
import RisingWave.Hummock.KeyCmp
import RisingWave.Hummock.Tombstone
import RisingWave.Hummock.CompactionDeleteRanges
import RisingWave.Hummock.MergeIterator
import RisingWave.Hummock.SstableMeta
import RisingWave.Hummock.Block
import RisingWave.Hummock.BlockLayout
import RisingWave.Hummock.BlockRead
import RisingWave.Hummock.BlockRoundTrip
import RisingWave.Hummock.BlockSeek
import RisingWave.Hummock.SstableUtils
import RisingWave.Lib.OrderedMap
import RisingWave.Lib.Rank
import RisingWave.Stream.Chunk
import RisingWave.Stream.TopNCache
import RisingWave.Stream.CacheState
import RisingWave.Stream.TopNPlain
import RisingWave.Stream.TopNWithTies
import RisingWave.Stream.StateCache
import RisingWave.Storage.MemTable
import RisingWave.Stream.DynamicFilter
import RisingWave.Stream.Dispatch
import RisingWave.Stream.WatermarkCache
import RisingWave.Stream.DeltaBTreeMap
import RisingWave.Stream.Distinct
import RisingWave.Hummock.UserIterator
import RisingWave.Hummock.XorFilter
import RisingWave.Hummock.SstableBuilder
import RisingWave.Lib.RunLength
import RisingWave.Common.Compress
import RisingWave.Common.VnodeMapping
import RisingWave.Common.ValueEncoding
import RisingWave.Common.ColumnAwareRowEncoding
import RisingWave.Common.MemcmpEncoding
import RisingWave.Common.Interval
import RisingWave.Common.IntervalIso
import RisingWave.Lib.Stamp
import RisingWave.Common.RowId
import RisingWave.Lib.Wildcard
import RisingWave.Expr.Like
import RisingWave.Lib.Grid
import RisingWave.Expr.HopWindow
import RisingWave.Stream.StateTable
import RisingWave.Hummock.KeyRange
import RisingWave.Lib.BitFamily
import RisingWave.Meta.Scale
import RisingWave.Meta.RebalanceLoop
import RisingWave.Meta.Rebalance
import RisingWave.Meta.LevelHandler
import RisingWave.Lib.PackedBits
import RisingWave.Lib.Iter
import RisingWave.Common.Buffer.Bitmap
import RisingWave.Common.Buffer.BitmapValid
import RisingWave.Common.Buffer.BitmapIter
import RisingWave.Common.Buffer.BitmapBuilder
import RisingWave.Common.Buffer.BitmapProtobuf
import RisingWave.Common.Buffer.BitmapLaws
import RisingWave.Lib.IndexRange
import RisingWave.Expr.WindowFrame
import RisingWave.Expr.WindowBuffer
import RisingWave.Expr.WindowBufferSpec
import RisingWave.Expr.WindowState
import RisingWave.Expr.WindowStateSpec
import RisingWave.Stream.EowcOverWindow
