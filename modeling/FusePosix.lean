import FusePosix.Utils.PathAlgebra
import FusePosix.Utils.DidChunks
import FusePosix.Rest.Keys
import FusePosix.Rest.Sharing
import FusePosix.Download.Command
import FusePosix.Download.Conservation
import FusePosix.Fuse.Gate
import FusePosix.Fuse.Handover
import FusePosix.Fuse.Races
import FusePosix.Fuse.Positions
import FusePosix.Fuse.Whole
import FusePosix.Utils.Interleaved
import FusePosix.Rest.Exchange
import FusePosix.Rest.Freshness
import FusePosix.Rest.Failures
import FusePosix.Fuse.Lookup
import FusePosix.Fuse.Outage
import FusePosix.Fuse.Naming
import FusePosix.Fuse.Reach
import FusePosix.Fuse.Agreement
import FusePosix.Rest.Isolation
import FusePosix.Fuse.Isolation
import FusePosix.Fuse.Startup
import FusePosix.Download.Copies
import FusePosix.Download.Complete
import FusePosix.Download.Passes
import FusePosix.Download.Handles
import FusePosix.Utils.Records
import FusePosix.Utils.InStep
import FusePosix.Utils.Printed
import FusePosix.Rest.Direct
import FusePosix.Rest.Refind
import FusePosix.Rest.Sizes
import FusePosix.Fuse.Primed
import FusePosix.Fuse.SameFile
import FusePosix.TokenPayload
import FusePosix.Rest.Scopes
import FusePosix.Fuse.Headers
import FusePosix.Fuse.Together
import FusePosix.Fuse.Oidc
import FusePosix.Fuse.Logins
import FusePosix.Fuse.Sent
import FusePosix.Fuse.Settings
import FusePosix.Utils.EmptyLines
import FusePosix.TokenRange
import FusePosix.Utils.Depth
import FusePosix.Rest.Defined
import FusePosix.Rest.Replicas
import FusePosix.Fuse.Catalogue
import FusePosix.Fuse.Walk
import FusePosix.Fuse.Endless
import FusePosix.Download.Drain
import FusePosix.Download.Outcome
import FusePosix.Lib.Descriptors
import FusePosix.Rest.Relay
import FusePosix.Fuse.Inventory
import FusePosix.Fuse.Mirror
import FusePosix.Fuse.Acts
import FusePosix.Fuse.Main
import FusePosix.Fuse.Secrets
import FusePosix.Lib.Noninterference
import FusePosix.Rest.Abreast
import FusePosix.Fuse.Influence
import FusePosix.Fuse.Economy
import FusePosix.Fuse.Downloads
import FusePosix.Lib.ReadThrough
import FusePosix.Rest.Overlap
