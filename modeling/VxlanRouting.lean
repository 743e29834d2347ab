import VxlanRouting.Address.Basic
import VxlanRouting.Address.Dotted
import VxlanRouting.Address.Groups
import VxlanRouting.Address.Hextets
import VxlanRouting.Address.Text
import VxlanRouting.Advertisement
import VxlanRouting.Config
import VxlanRouting.Document.Datum
import VxlanRouting.Document.Stored
import VxlanRouting.Document.Yaml
import VxlanRouting.Document.Yaml.Anchor
import VxlanRouting.Document.Yaml.Block
import VxlanRouting.Document.Yaml.Directive
import VxlanRouting.Document.Yaml.Layout
import VxlanRouting.Document.Yaml.Lexeme
import VxlanRouting.Document.Yaml.Lines
import VxlanRouting.Document.Yaml.Node
import VxlanRouting.Document.Yaml.Plain
import VxlanRouting.Document.Yaml.Quoted
import VxlanRouting.Document.Yaml.Scalar
import VxlanRouting.Document.Yaml.Tag
import VxlanRouting.Engine.Basic
import VxlanRouting.Engine.Events
import VxlanRouting.Engine.Process
import VxlanRouting.Engine.Reconcile
import VxlanRouting.Interface
import VxlanRouting.Locate
import VxlanRouting.LogicalRouter.Basic
import VxlanRouting.LogicalRouter.Map
import VxlanRouting.LogicalRouter.Role
import VxlanRouting.Mac
import VxlanRouting.Map.Arrival
import VxlanRouting.Map.Entries
import VxlanRouting.Map.Ordered
import VxlanRouting.Members
import VxlanRouting.NextHop.Basic
import VxlanRouting.NextHop.Key
import VxlanRouting.NextHop.Resolve
import VxlanRouting.Parameters
import VxlanRouting.Path
import VxlanRouting.Peer
import VxlanRouting.Prefix.Basic
import VxlanRouting.Prefix.Map
import VxlanRouting.Prefix.Text
import VxlanRouting.Proofs.AddressText
import VxlanRouting.Proofs.Batch
import VxlanRouting.Proofs.Calls
import VxlanRouting.Proofs.Change
import VxlanRouting.Proofs.Checks
import VxlanRouting.Proofs.Contributions
import VxlanRouting.Proofs.Coverage
import VxlanRouting.Proofs.Decision
import VxlanRouting.Proofs.Delivery
import VxlanRouting.Proofs.Drain
import VxlanRouting.Proofs.Duty
import VxlanRouting.Proofs.Events
import VxlanRouting.Proofs.ExactHits
import VxlanRouting.Proofs.Exports
import VxlanRouting.Proofs.Faults
import VxlanRouting.Proofs.Filled
import VxlanRouting.Proofs.Foreign
import VxlanRouting.Proofs.Frames
import VxlanRouting.Proofs.HostBits
import VxlanRouting.Proofs.Isolation
import VxlanRouting.Proofs.ItemSources
import VxlanRouting.Proofs.Labels
import VxlanRouting.Proofs.LateRoute
import VxlanRouting.Proofs.LeadingBits
import VxlanRouting.Proofs.Leak
import VxlanRouting.Proofs.Location
import VxlanRouting.Proofs.LongestMatch
import VxlanRouting.Proofs.Machines
import VxlanRouting.Proofs.MapOrder
import VxlanRouting.Proofs.Mending
import VxlanRouting.Proofs.Notices
import VxlanRouting.Proofs.Orphans
import VxlanRouting.Proofs.PathHistory
import VxlanRouting.Proofs.PathMap
import VxlanRouting.Proofs.PathOrder
import VxlanRouting.Proofs.Paths
import VxlanRouting.Proofs.Placement
import VxlanRouting.Proofs.PrefixText
import VxlanRouting.Proofs.Promise
import VxlanRouting.Proofs.Refresh
import VxlanRouting.Proofs.Refusals
import VxlanRouting.Proofs.Registry
import VxlanRouting.Proofs.Resolution
import VxlanRouting.Proofs.Rewiring
import VxlanRouting.Proofs.Roles
import VxlanRouting.Proofs.Routers
import VxlanRouting.Proofs.Sequences
import VxlanRouting.Proofs.Settled
import VxlanRouting.Proofs.Snapshot
import VxlanRouting.Proofs.SourceText
import VxlanRouting.Proofs.Stamps
import VxlanRouting.Proofs.Stepwise
import VxlanRouting.Proofs.StoredPrefix
import VxlanRouting.Proofs.Termination
import VxlanRouting.Proofs.Tunnels
import VxlanRouting.Proofs.Turns
import VxlanRouting.Proofs.Validation
import VxlanRouting.Proofs.Visits
import VxlanRouting.Proofs.VniIndex
import VxlanRouting.Proofs.Withdrawal
import VxlanRouting.Proofs.WrittenRouters
import VxlanRouting.Report
import VxlanRouting.Request
import VxlanRouting.Route
import VxlanRouting.RouteKey
import VxlanRouting.Sessions
import VxlanRouting.Tables
import VxlanRouting.Text.Blank
import VxlanRouting.Text.Numeral
import VxlanRouting.Text.Pieces
import VxlanRouting.TunnelTypes
import VxlanRouting.View
import VxlanRouting.Vni
import VxlanRouting.Vrf
import VxlanRouting.VrfTable
