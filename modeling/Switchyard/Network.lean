import Switchyard.Fault
import Switchyard.Walk

namespace Switchyard

open Std

variable [Numbering]

structure Bus where
  id : String
  name : Option String
  voltageLevel : String
  deriving DecidableEq

/-- A switch between two buses. -/
structure BusSwitch where
  id : String
  name : Option String
  voltageLevel : String
  kind : SwitchKind
  bus1 : String
  bus2 : String
  isOpen : Bool
  fictitious : Bool
  deriving DecidableEq

/-- The inside of a voltage level at bus level. -/
structure BusLayout where
  buses : ExtTreeMap String Bus := ∅
  switches : ExtTreeMap String BusSwitch := ∅

inductive Topology where
  | nodeBreaker (wiring : Wiring)
  | busBreaker (layout : BusLayout)

def Topology.kind : Topology → TopologyKind
  | .nodeBreaker _ => .nodeBreaker
  | .busBreaker _ => .busBreaker

def Topology.empty : TopologyKind → Topology
  | .nodeBreaker => .nodeBreaker {}
  | .busBreaker => .busBreaker {}

structure VoltageLevel where
  id : String
  name : Option String
  substation : Option String
  nominalV : Float
  fictitious : Bool
  topology : Topology

def VoltageLevel.layout? (v : VoltageLevel) : Option BusLayout :=
  match v.topology with
  | .nodeBreaker _ => none
  | .busBreaker l => some l

/-- What an id stands for, with its voltage level for what lies inside one. -/
structure IndexEntry where
  kind : ObjectKind
  voltageLevel : Option String
  deriving DecidableEq

/-- A network of equipment. The index holds every id in use. The serial number
tells apart networks with one id. -/
structure Network where
  id : String
  serial : Nat := 0
  index : ExtTreeMap String IndexEntry := ∅
  substations : ExtTreeMap String Substation := ∅
  voltageLevels : ExtTreeMap String VoltageLevel := ∅
  busbarSections : ExtTreeMap String BusbarSection := ∅
  injections : ExtTreeMap String Injection := ∅
  branches : ExtTreeMap String Branch := ∅
  transformers : ExtTreeMap String ThreeWindingsTransformer := ∅

/-- Any object found by its id. -/
inductive Object where
  | substation (s : Substation)
  | voltageLevel (v : VoltageLevel)
  | bus (b : Bus)
  | switch (s : Switch)
  | busSwitch (s : BusSwitch)
  | connectable (c : Connectable)

def Object.id : Object → String
  | .substation s => s.id
  | .voltageLevel v => v.id
  | .bus b => b.id
  | .switch s => s.id
  | .busSwitch s => s.id
  | .connectable c => c.id

def Object.kind : Object → ObjectKind
  | .substation _ => .substation
  | .voltageLevel _ => .voltageLevel
  | .bus _ => .bus
  | .switch _ | .busSwitch _ => .switch
  | .connectable c => c.kind

namespace Network

def contains (n : Network) (id : String) : Bool :=
  n.index.contains id

def kind? (n : Network) (id : String) : Option ObjectKind :=
  n.index[id]?.map (·.kind)

def connectable? (n : Network) (id : String) : Option Connectable :=
  (n.busbarSections[id]?.map .busbarSection).or <|
    (n.injections[id]?.map .injection).or <|
      (n.branches[id]?.map .branch).or (n.transformers[id]?.map .transformer)

/-- The busbar sections, the injections, the branches, then the transformers. -/
def connectables (n : Network) : List Connectable :=
  n.busbarSections.values.map .busbarSection ++ n.injections.values.map .injection ++
    n.branches.values.map .branch ++ n.transformers.values.map .transformer

def connectablesIn (n : Network) (voltageLevel : String) : List Connectable :=
  n.connectables.filter (·.isIn voltageLevel)

/-- The equipment of a voltage level other than its busbar sections. -/
def equipmentIn (n : Network) (voltageLevel : String) : List Connectable :=
  (n.connectablesIn voltageLevel).filter (!·.isBusbarSection)

def busbarSectionsIn (n : Network) (voltageLevel : String) : List BusbarSection :=
  n.busbarSections.values.filter (·.voltageLevel == voltageLevel)

def voltageLevelsIn (n : Network) (substation : String) : List VoltageLevel :=
  n.voltageLevels.values.filter (·.substation == some substation)

def lines (n : Network) : List Branch :=
  n.branches.values.filter (·.kind = .line)

def line? (n : Network) (id : String) : Option Branch :=
  n.branches[id]?.filter (·.kind = .line)

def find? (n : Network) (id : String) : Option Object := do
  let entry ← n.index[id]?
  let within : Option VoltageLevel := entry.voltageLevel.bind (n.voltageLevels[·]?)
  match entry.kind with
  | .substation => n.substations[id]?.map .substation
  | .voltageLevel => n.voltageLevels[id]?.map .voltageLevel
  | .bus => (← (← within).layout?).buses[id]?.map .bus
  | .switch =>
    match (← within).topology with
    | .nodeBreaker w => w.switches[id]?.map .switch
    | .busBreaker l => l.switches[id]?.map .busSwitch
  | _ => (n.connectable? id).map .connectable

def bus? (n : Network) (id : String) : Option Bus :=
  match n.find? id with
  | some (.bus b) => some b
  | _ => none

def switch? (n : Network) (id : String) : Option Switch :=
  match n.find? id with
  | some (.switch s) => some s
  | _ => none

def busSwitch? (n : Network) (id : String) : Option BusSwitch :=
  match n.find? id with
  | some (.busSwitch s) => some s
  | _ => none

/-- The node level inside of a voltage level. -/
def wiring (n : Network) (voltageLevel : String) : Except Fault Wiring :=
  match n.voltageLevels[voltageLevel]? with
  | none => .error (.voltageLevelNotFound voltageLevel)
  | some v =>
    match v.topology with
    | .nodeBreaker w => .ok w
    | .busBreaker _ => .error (.notNodeBreaker voltageLevel)

/-- The bus level inside of a voltage level. -/
def busLayout (n : Network) (voltageLevel : String) : Except Fault BusLayout :=
  match n.voltageLevels[voltageLevel]? with
  | none => .error (.voltageLevelNotFound voltageLevel)
  | some v =>
    match v.topology with
    | .nodeBreaker _ => .error (.notBusBreaker voltageLevel)
    | .busBreaker l => .ok l

def setTopology (n : Network) (voltageLevel : String) (t : Topology) : Network :=
  { n with voltageLevels := n.voltageLevels.modify voltageLevel ({ · with topology := t }) }

/-- The id with a number after it, for an id already in use. -/
def numberedId (base : String) (number : Nat) : String :=
  s!"{base}#{number}"

/-- The id itself if it is free, or else its first free numbered form. One of
as many numbers as there are ids, and one more, is free. -/
def uniqueId (n : Network) (base : String) : String :=
  if n.contains base then
    (((List.range (n.index.size + 1)).map (numberedId base)).find? (!n.contains ·)).getD base
  else base

end Network

end Switchyard
