import Pgvs3.Store.Serial
import Pgvs3.Tier.Retained
import Pgvs3.Tier.Pairing
import Pgvs3.Tier.Finality
import Pgvs3.Tier.Conditional
import Pgvs3.Tier.Presence
import Pgvs3.Tier.Fencing
import Pgvs3.Store.FileIdsUnique
import Pgvs3.Queue.CatchUp
import Pgvs3.Queue.LeaseProtection
import Pgvs3.Origin.BatchDelete
import Pgvs3.Origin.ConditionalUpload
import Pgvs3.Ingest.ChunkedExact
import Pgvs3.Ingest.PutIntegrity
import Pgvs3.Cache.KeyLinear
import Pgvs3.Read.GuardedReads
import Pgvs3.Queue.JobTable
import Pgvs3.Queue.Retention
import Pgvs3.Queue.Nacks
import Pgvs3.Origin.Confinement
import Pgvs3.Cache.Scan
import Pgvs3.Listing.Uploads
import Pgvs3.Cache.Visibility
import Pgvs3.Cache.PipelineRuns
import Pgvs3.Tier.Staleness
import Pgvs3.Origin.RangeChunks
import Pgvs3.Store.PartAttributes
import Pgvs3.Store.PartReads
import Pgvs3.Codec.CacheRuns
import Pgvs3.Ingest.Crc64
import Pgvs3.Codec.PiecesWrap
import Pgvs3.Cache.Counter
import Pgvs3.Origin.CopySource
import Pgvs3.Cache.Durations
import Pgvs3.Cache.GetRange
import Pgvs3.Cache.Timeless
import Pgvs3.Store.Eviction
