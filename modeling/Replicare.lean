import Replicare.Cascade
import Replicare.MysqlCapture
import Replicare.SinkMarker
import Replicare.Fanout
import Replicare.MeshReseed
import Replicare.FkAcyclic
import Replicare.FkCyclic
import Replicare.UniqueDrain
import Replicare.PgIdentity
import Replicare.BringupEnds
import Replicare.HlcRow
import Replicare.ClusterReread
import Replicare.ClusterRace
import Replicare.RedisTombstone
import Replicare.RedisConverge
import Replicare.ExpiryRounds
import Replicare.CopyWatermark
import Replicare.CursorRace
import Replicare.MysqlCyclic
import Replicare.PgCyclicLoads
import Replicare.ReseedOrder
import Replicare.SizeCap
import Replicare.PgPredicate
import Replicare.PurgeExact
import Replicare.Collated
import Replicare.DrainConverges
import Replicare.EnvExpand
import Replicare.Isolation
import Replicare.KeySpelling
import Replicare.Migrate
import Replicare.MysqlFingerprint
import Replicare.MysqlLoadData
import Replicare.MysqlSession
import Replicare.RedisFingerprint
import Replicare.RedisFraming
import Replicare.RedisGlob
import Replicare.RedisSweep
import Replicare.RedisTypes
import Replicare.MysqlLossless
import Replicare.PgLossless
import Replicare.RedisJoin
import Replicare.RedisLoad
import Replicare.DrainOrder
import Replicare.Ownership
import Replicare.StreamAccounts
