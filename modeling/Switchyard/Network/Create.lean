import Switchyard.Draft
import Switchyard.Network.Edit

namespace Switchyard

variable [Numbering]

/-- Adds the substation under its id. -/
def Substation.create (s : Substation) : Edit String := do
  let id ← Edit.claimId s.id false .substation none
  modify fun n => { n with substations := n.substations.insert id s }
  return id

def VoltageLevelDraft.create (d : VoltageLevelDraft) : Edit String := do
  match d.substation with
  | some substation =>
    if !(← get).substations.contains substation then throw (.substationNotFound substation)
  | none => pure ()
  let id ← Edit.claimId d.id false .voltageLevel none
  let v : VoltageLevel :=
    { id, name := d.name, substation := d.substation, nominalV := d.nominalV,
      fictitious := d.fictitious, topology := .empty d.kind }
  modify fun n => { n with voltageLevels := n.voltageLevels.insert id v }
  return id

def BusbarSectionDraft.create (d : BusbarSectionDraft) : Edit String := do
  let terminal := Terminal.atNode d.voltageLevel d.node
  Edit.checkTerminals [] [terminal]
  let id ← Edit.claimId d.id d.unique .busbarSection (some d.voltageLevel)
  Edit.attachTerminals id [(.one, terminal)]
  let b : BusbarSection :=
    { id, name := d.name, voltageLevel := d.voltageLevel, node := d.node, position := d.position }
  modify fun n => { n with busbarSections := n.busbarSections.insert id b }
  return id

def BusDraft.create (d : BusDraft) : Edit String := do
  let _ ← Edit.busLayout d.voltageLevel
  let id ← Edit.claimId d.id d.unique .bus (some d.voltageLevel)
  let layout ← Edit.busLayout d.voltageLevel
  let b : Bus := { id, name := d.name, voltageLevel := d.voltageLevel }
  Edit.setBusLayout d.voltageLevel { layout with buses := layout.buses.insert id b }
  return id

def SwitchDraft.create (d : SwitchDraft) : Edit String := do
  let _ ← Edit.wiring d.voltageLevel
  if d.node1 = d.node2 then throw (.switchLoop d.id d.node1)
  let id ← Edit.claimId d.id d.unique .switch (some d.voltageLevel)
  let wiring ← Edit.wiring d.voltageLevel
  Edit.setWiring d.voltageLevel <| wiring.addSwitch
    { id, name := d.name, voltageLevel := d.voltageLevel, kind := d.kind, node1 := d.node1,
      node2 := d.node2, isOpen := d.isOpen, retained := d.retained, fictitious := d.fictitious }
  return id

def BusSwitchDraft.create (d : BusSwitchDraft) : Edit String := do
  let layout ← Edit.busLayout d.voltageLevel
  if !layout.buses.contains d.bus1 then throw (.busNotFound d.bus1 d.voltageLevel)
  if !layout.buses.contains d.bus2 then throw (.busNotFound d.bus2 d.voltageLevel)
  let id ← Edit.claimId d.id d.unique .switch (some d.voltageLevel)
  let layout ← Edit.busLayout d.voltageLevel
  let s : BusSwitch :=
    { id, name := d.name, voltageLevel := d.voltageLevel, kind := d.kind, bus1 := d.bus1,
      bus2 := d.bus2, isOpen := d.isOpen, fictitious := d.fictitious }
  Edit.setBusLayout d.voltageLevel { layout with switches := layout.switches.insert id s }
  return id

def InjectionDraft.create (d : InjectionDraft) : Edit String := do
  let some terminal := d.terminal | throw (.injectionUnattached d.id)
  Edit.checkTerminals [] [terminal]
  let id ← Edit.claimId d.id d.unique (.injection d.kind) none
  Edit.attachTerminals id [(.one, terminal)]
  let i : Injection :=
    { id, name := d.name, kind := d.kind, terminal, p0 := d.p0, q0 := d.q0, position := none }
  modify fun n => { n with injections := n.injections.insert id i }
  return id

def BranchDraft.create (d : BranchDraft) : Edit String := do
  let (some terminal1, some terminal2) := (d.terminal1, d.terminal2)
    | throw (.branchUnattached d.id)
  Edit.checkTerminals [] [terminal1, terminal2]
  let id ← Edit.claimId d.id d.unique (.branch d.kind) none
  Edit.attachTerminals id [(.one, terminal1), (.two, terminal2)]
  let b : Branch :=
    { id, name := d.name, kind := d.kind, terminal1, terminal2, parameters := d.parameters,
      limits1 := d.limits1, limits2 := d.limits2, position := none }
  modify fun n => { n with branches := n.branches.insert id b }
  return id

def TransformerDraft.create (d : TransformerDraft) : Edit String := do
  let (some terminal1, some terminal2, some terminal3) := (d.terminal1, d.terminal2, d.terminal3)
    | throw (.transformerUnattached d.id)
  Edit.checkTerminals [] [terminal1, terminal2, terminal3]
  let id ← Edit.claimId d.id false .threeWindingsTransformer none
  Edit.attachTerminals id [(.one, terminal1), (.two, terminal2), (.three, terminal3)]
  let t : ThreeWindingsTransformer :=
    { id, name := d.name, terminal1, terminal2, terminal3, position := none }
  modify fun n => { n with transformers := n.transformers.insert id t }
  return id

def ConnectableDraft.create : ConnectableDraft → Edit String
  | .injection d => d.create
  | .branch d => d.create
  | .transformer d => d.create

namespace Edit

def addConnection (voltageLevel : String) (node1 node2 : Node) : Edit Unit := do
  let wiring ← Edit.wiring voltageLevel
  if node1 = node2 then throw (.connectionLoop node1)
  setWiring voltageLevel (wiring.addConnection node1 node2)

def setBusbarPosition (id : String) (position : Option BusbarPosition) : Edit Unit := do
  let n ← get
  if !n.busbarSections.contains id then throw (.busbarSectionNotFound id)
  set { n with busbarSections := n.busbarSections.modify id ({ · with position }) }

def setFeederPosition (id : String) (position : Option FeederPosition) : Edit Unit := do
  let n ← get
  if n.injections.contains id then
    set { n with injections := n.injections.modify id ({ · with position }) }
  else if n.branches.contains id then
    set { n with branches := n.branches.modify id ({ · with position }) }
  else if n.transformers.contains id then
    set { n with transformers := n.transformers.modify id ({ · with position }) }
  else throw (.feederNotFound id)

/-- Opens or closes a switch, looked for in the voltage levels in turn. -/
def setSwitchOpen (id : String) (isOpen : Bool) : Edit Unit := do
  let holds (v : VoltageLevel) : Bool :=
    match v.topology with
    | .nodeBreaker w => w.switches.contains id
    | .busBreaker l => l.switches.contains id
  match (← get).voltageLevels.values.find? holds with
  | none => throw (.switchNotFound id)
  | some v =>
    match v.topology with
    | .nodeBreaker w => setWiring v.id (w.setSwitchOpen id isOpen)
    | .busBreaker l =>
      setBusLayout v.id { l with switches := l.switches.modify id ({ · with isOpen }) }

end Edit

end Switchyard
