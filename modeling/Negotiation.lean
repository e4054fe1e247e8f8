import Negotiation.Graph.Building
import Negotiation.Graph.Freeze
import Negotiation.Inspection
import Negotiation.Json.Record
import Negotiation.Settings.Storage
import Negotiation.Proofs.OrderIndependence
import Negotiation.Proofs.Reference
import Negotiation.Proofs.Circulation
import Negotiation.Proofs.GroupValue
import Negotiation.Proofs.Transparency
import Negotiation.Proofs.Tables
import Negotiation.Proofs.Termination
import Negotiation.Proofs.Tracing
import Negotiation.Proofs.Finality
import Negotiation.Proofs.Circles
import Negotiation.Proofs.Naming
import Negotiation.Proofs.Loops
import Negotiation.Proofs.Phases
import Negotiation.Proofs.Attribution
import Negotiation.Proofs.Lockstep
import Negotiation.Proofs.Locality
import Negotiation.Proofs.Satisfaction
import Negotiation.Proofs.CommonValue
import Negotiation.Proofs.Aggregation
import Negotiation.Proofs.Grouping
import Negotiation.Proofs.Coalescing
import Negotiation.Proofs.AddressSpace
import Negotiation.Proofs.MergeLaws
import Negotiation.Proofs.Paths
import Negotiation.Proofs.Economy
import Negotiation.Proofs.Endpoints
import Negotiation.Proofs.Stages
import Negotiation.Proofs.Scaling
import Negotiation.Proofs.JsonText
import Negotiation.Proofs.StoredRecords
import Negotiation.Proofs.StrictDemand
import Negotiation.Proofs.StrictRequests
