import Ipfrs.Core.ChunkTotal
import Ipfrs.Core.ChunkStream
import Ipfrs.Node.DagTraverse
import Ipfrs.Node.Gc
import Ipfrs.Core.CarVariants
import Ipfrs.Node.Fsck
import Ipfrs.Node.Directory
import Ipfrs.Core.MerkleBatchProof
import Ipfrs.Core.ContentManifest
import Ipfrs.Core.ParallelRead
import Ipfrs.Core.BlockCacheLru
import Ipfrs.Storage.RaftApply
import Ipfrs.Storage.PinFailures
import Ipfrs.Storage.GcLimit
import Ipfrs.Node.GcBlocks
import Ipfrs.Core.StreamingCompression
import Ipfrs.Node.Auth
import Ipfrs.Storage.StoreIdentity
import Ipfrs.Storage.VcsIdentity
import Ipfrs.Storage.VcsRefs
import Ipfrs.Storage.Wal
import Ipfrs.Storage.StorageWal
import Ipfrs.Storage.CachedStoreTasks
import Ipfrs.Storage.TieredCache
import Ipfrs.Storage.CarRoundTrip
import Ipfrs.Storage.CarSafety
import Ipfrs.Tensorlogic.DatalogSafety
import Ipfrs.Tensorlogic.IpldCodec
import Ipfrs.Tensorlogic.Proving
import Ipfrs.Tensorlogic.QueryCache
import Ipfrs.Tensorlogic.Verification
import Ipfrs.Tensorlogic.TabledLeast
import Ipfrs.Tensorlogic.Stratification
import Ipfrs.Transport.Session
import Ipfrs.Transport.ArrowFraming
import Ipfrs.Transport.RequestCoalescing
import Ipfrs.Tensorlogic.ProofGraph
import Ipfrs.Tensorlogic.GraphFusion
import Ipfrs.Tensorlogic.GraphPartition
import Ipfrs.Tensorlogic.ConsensusQuorum
import Ipfrs.Transport.Erasure
import Ipfrs.Network.PeerSyncDelta
import Ipfrs.Network.AntiEntropy
import Ipfrs.Network.PacketFragmentation
import Ipfrs.Storage.TransactionLog
import Ipfrs.Storage.SnapshotManager
import Ipfrs.Storage.CompressionPipeline
import Ipfrs.Core.CarVarint
import Ipfrs.Tensorlogic.BatchScheduler
import Ipfrs.Network.StreamLimit
import Ipfrs.Network.MessageCodec
import Ipfrs.Interface.BinaryProtocol
import Ipfrs.Transport.ByteRange
import Ipfrs.Interface.HttpRange
import Ipfrs.Transport.GradientAggregator
import Ipfrs.Storage.ObjectVersionGc
import Ipfrs.Storage.RaftReplication
import Ipfrs.Storage.MerkleProofVerifier
