import Switchyard.Change
import Switchyard.Listing
import Switchyard.Modification
import Switchyard.Proofs.Additions
import Switchyard.Proofs.AllOrNothing
import Switchyard.Proofs.Atomicity
import Switchyard.Proofs.Consistency
import Switchyard.Proofs.CouplingDevices
import Switchyard.Proofs.CutRoundTrip
import Switchyard.Proofs.Descents
import Switchyard.Proofs.FailedInsertions
import Switchyard.Proofs.FeederRoundTrip
import Switchyard.Proofs.FreeOrders
import Switchyard.Proofs.Inapplicable
import Switchyard.Proofs.Grids
import Switchyard.Proofs.MeetingPoints
import Switchyard.Proofs.Merges
import Switchyard.Proofs.NeighbourWays
import Switchyard.Proofs.Nodes
import Switchyard.Proofs.Policy
import Switchyard.Proofs.RailListings
import Switchyard.Proofs.Refusals
import Switchyard.Proofs.RepeatedConnections
import Switchyard.Proofs.Replay
import Switchyard.Proofs.SectionSupply
import Switchyard.Proofs.SliceContents
import Switchyard.Proofs.SplitEnds
import Switchyard.Proofs.Stripped
import Switchyard.Proofs.Supply
import Switchyard.Proofs.TapRoundTrip
import Switchyard.Proofs.TeeAgreement
import Switchyard.Proofs.Traversals
import Switchyard.Proofs.UniqueIds
