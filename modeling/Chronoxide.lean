import Chronoxide.Encoding.Chimp
import Chronoxide.Query.ResultMerge
import Chronoxide.Query.ProjectionAgreement
import Chronoxide.Head.Arena
import Chronoxide.Live.CoverageCut
import Chronoxide.Head.TrackedRun
import Chronoxide.Head.RunCounter
import Chronoxide.Head.SampleStoreRun
import Chronoxide.Chunk.IndexV2File
import Chronoxide.Live.Register
import Chronoxide.Segment.SealedOrder
import Chronoxide.Query.ProjectedSelection
import Chronoxide.Wal.Inventory
import Chronoxide.Metadata.Governor
