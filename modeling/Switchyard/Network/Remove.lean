import Switchyard.Network.Edit

namespace Switchyard.Edit

variable [Numbering]

def removeSwitch (id : String) : Edit Unit := do
  let n ← get
  let some ⟨.switch, some voltageLevel⟩ := n.index[id]? | throw (.switchNotFound id)
  let some v := n.voltageLevels[voltageLevel]? | throw (.switchVoltageLevelLost id voltageLevel)
  match v.topology with
  | .nodeBreaker w =>
    let some w := w.removeSwitch? id | throw (.switchLost id voltageLevel)
    setWiring voltageLevel w
  | .busBreaker l =>
    if !l.switches.contains id then throw (.switchLost id voltageLevel)
    setBusLayout voltageLevel { l with switches := l.switches.erase id }
  forgetId id

/-- Removes the internal connections between two nodes, and tells how many there were. -/
def removeConnections (voltageLevel : String) (node1 node2 : Node) : Edit Nat := do
  let w ← wiring voltageLevel
  setWiring voltageLevel (w.removeConnections node1 node2)
  return (w.connectionsBetween node1 node2).length

/-- Removes equipment. The switches around its terminals are left in place. -/
def removeConnectable (id : String) : Edit Unit := do
  let n ← get
  let some c := n.connectable? id | throw (.connectableNotFound id)
  match c with
  | .busbarSection _ => set { n with busbarSections := n.busbarSections.erase id }
  | .injection _ => set { n with injections := n.injections.erase id }
  | .branch _ => set { n with branches := n.branches.erase id }
  | .transformer _ => set { n with transformers := n.transformers.erase id }
  forgetId id
  detachTerminals (c.terminals.map (·.2))

/-- Removes a voltage level with its busbar sections, buses and switches,
provided that nothing else is attached to it. -/
def removeVoltageLevel (id : String) : Edit Unit := do
  let n ← get
  let some v := n.voltageLevels[id]? | throw (.voltageLevelNotFound id)
  let equipment := n.equipmentIn id
  if !equipment.isEmpty then throw (.voltageLevelInUse id (equipment.map (·.id)))
  let inside := (n.busbarSectionsIn id).map (·.id) ++
    match v.topology with
    | .nodeBreaker w => w.switches.keys
    | .busBreaker l => l.switches.keys ++ l.buses.keys
  set { n with
    busbarSections := n.busbarSections.filter fun _ b => b.voltageLevel != id
    voltageLevels := n.voltageLevels.erase id
    index := n.index.filter fun key _ => key != id && !inside.contains key }

def removeSubstation (id : String) : Edit Unit := do
  let n ← get
  if !n.substations.contains id then throw (.substationNotFound id)
  if !(n.voltageLevelsIn id).isEmpty then throw (.substationInUse id)
  set { n with substations := n.substations.erase id }
  forgetId id

end Switchyard.Edit
