import Zelavis.Agent.CustodyRuns
import Zelavis.Agent.Framing
import Zelavis.Agent.ProjectDispatch
import Zelavis.Agent.RemotePlacementRuns
import Zelavis.Db.DeclarationRuns
import Zelavis.Db.Drops
import Zelavis.Db.Engines
import Zelavis.Db.Histograms
import Zelavis.Db.IdentityPages
import Zelavis.Db.KeySpace
import Zelavis.Db.KeyValueRuns
import Zelavis.Db.MigrationRuns
import Zelavis.Db.PartitionMaps
import Zelavis.Db.PostingAlgebra
import Zelavis.Db.Retries
import Zelavis.Db.SchemaVersions
import Zelavis.Db.SealStops
import Zelavis.Db.Subdivisions
import Zelavis.Db.Tenancies
import Zelavis.Db.TimeSeries
import Zelavis.Db.Traversal
import Zelavis.Db.VersionGuards
import Zelavis.Edge.CertificateOrders
import Zelavis.Edge.Registry
import Zelavis.Edge.SwitchOutcomes
import Zelavis.Edge.SwitchTruth
import Zelavis.Edge.TraefikRouting
import Zelavis.Fabric.PlacementLaws
import Zelavis.Fabric.PlacementOrder
import Zelavis.Identity.Lockout
import Zelavis.Identity.RecoveryRuns
import Zelavis.Identity.SignInRuns
import Zelavis.Marketplace.AllowlistRuns
import Zelavis.Platform.AppDataPlacementRuns
import Zelavis.Platform.AuthorityEnvelopes
import Zelavis.Platform.BootstrapRuns
import Zelavis.Platform.HostOperations
import Zelavis.Platform.PlacementRuns
import Zelavis.Platform.ServiceRegistryRuns
import Zelavis.Runtime.Dispatch
import Zelavis.Runtime.HandoverRuns
import Zelavis.Core.Uninstall
import Zelavis.Db.Followers
import Zelavis.Db.OrderedPaging
import Zelavis.Db.Convergence
import Zelavis.Db.Upkeep
