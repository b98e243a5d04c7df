import Fastdup.Appliance.CommitWriter.Encodable
import Fastdup.Appliance.DependencyProofs
import Fastdup.Appliance.IngestQueue
import Fastdup.Appliance.PublicationQueue
import Fastdup.Format.NamespaceShards
import Fastdup.Posix.DirtyPayload
import Fastdup.Posix.Namespace.Immutable
import Fastdup.Posix.Namespace.Listing
import Fastdup.Posix.ObserverOrder.Calls
import Fastdup.Posix.RecordLocks
import Fastdup.Posix.SparseData.Atomic
import Fastdup.Posix.WriteCapacity
import Fastdup.Store.Generation.Chain
import Fastdup.Store.Maintenance.Drain
import Fastdup.Store.Maintenance.Packing
import Fastdup.Store.Maintenance.RequiredChunks
import Fastdup.Store.ManifestTree.Capacity
