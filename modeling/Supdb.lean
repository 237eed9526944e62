import Supdb.WalCommit
import Supdb.SyncBarrier
import Supdb.Landing
import Supdb.SegmentIds
import Supdb.RecordSlack
import Supdb.Lz4Lossless
import Supdb.PageDamage
import Supdb.FlatDamage
import Supdb.ZResidentExact
import Supdb.ReserveBound
import Supdb.KeyOrder
import Supdb.StreamArena
import Supdb.SnapRuns
import Supdb.PieceRanks
import Supdb.ByteRanges
import Supdb.ManifestTrap
import Supdb.BlockedBloom
import Supdb.MergeRuns
import Supdb.GroupMemo
import Supdb.ZSelectRun
import Supdb.Lend
import Supdb.LevelsScanParts
