import Switchyard.Network

namespace Switchyard

variable [Numbering]

/-- The inside of a voltage level, in order. -/
inductive InsideListing where
  | nodeBreaker (nodes : List Node) (terminals : List (Node × Attachment)) (switches : List Switch)
      (connections : List (Node × Node))
  | busBreaker (buses : List Bus) (switches : List BusSwitch)
  deriving DecidableEq

structure VoltageLevelListing where
  id : String
  name : Option String
  substation : Option String
  nominalV : Float
  kind : TopologyKind
  fictitious : Bool
  inside : InsideListing
  deriving DecidableEq

/-- Everything that can be seen of a network, in order. -/
structure Listing where
  substations : List Substation
  voltageLevels : List VoltageLevelListing
  busbarSections : List BusbarSection
  injections : List Injection
  branches : List Branch
  transformers : List ThreeWindingsTransformer
  deriving DecidableEq

def Topology.listing : Topology → InsideListing
  | .nodeBreaker w => .nodeBreaker w.nodes.toList w.terminals.toList w.switches.values w.connections
  | .busBreaker l => .busBreaker l.buses.values l.switches.values

def VoltageLevel.listing (v : VoltageLevel) : VoltageLevelListing where
  id := v.id
  name := v.name
  substation := v.substation
  nominalV := v.nominalV
  kind := v.topology.kind
  fictitious := v.fictitious
  inside := v.topology.listing

def Network.listing (n : Network) : Listing where
  substations := n.substations.values
  voltageLevels := n.voltageLevels.values.map (·.listing)
  busbarSections := n.busbarSections.values
  injections := n.injections.values
  branches := n.branches.values
  transformers := n.transformers.values

end Switchyard
