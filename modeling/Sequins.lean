import Sequins.HashCode
import Sequins.Ingest
import Sequins.BlockStore
import Sequins.Block
import Sequins.StoreMap
import Sequins.Build
import Sequins.Loaded
import Sequins.Machine
import Sequins.Proxy
import Sequins.Serve
import Sequins.Cluster
import Sequins.VersionMux
import Sequins.DB
import Sequins.RollForward
import Sequins.InUse
import Sequins.Node
import Sequins.Readiness
import Sequins.GoPath
import Sequins.Peers
import Sequins.Restart
import Sequins.RoundTrip
import Sequins.ProxyProtocol
import Sequins.Handover
import Sequins.CloseOnce
import Sequins.ClosedStores
import Sequins.Complete
import Sequins.Backend
import Sequins.VersionListing
import Sequins.Removal
import Sequins.PartitionNode
import Sequins.GoURL
import Sequins.ProxyRequest
import Sequins.Status
import Sequins.StatusPage
import Sequins.ZooKeeper
import Sequins.Ephemeral
import Sequins.Obsolete
import Sequins.Advertise
import Sequins.Unadvertise
import Sequins.Watcher
import Sequins.EndWatch
import Sequins.OneWatcher
import Sequins.CleanupStore
import Sequins.Registration
import Sequins.Replication
import Sequins.Truthful
import Sequins.BuildLocks
import Sequins.Config
import Sequins.ZkCalls
import Sequins.CleanupTree
import Sequins.Bounds
import Sequins.Iterators
import Sequins.CreateAll
import Sequins.Foremost
import Sequins.Consistent
import Sequins.Placement
import Sequins.ByteStream
import Sequins.Snappy
import Sequins.SequenceFile
import Sequins.SequenceFormat
import Sequins.SequenceBlocks
import Sequins.SnappyFrames
import Sequins.FileSource
import Sequins.WatchedLists
import Sequins.Shutdown
