import Switchyard.Network.Create
import Switchyard.Network.Remove

namespace Switchyard

variable [Numbering]

/-- An elementary change of a network. -/
inductive Change where
  | addSubstation (s : Substation)
  | addVoltageLevel (d : VoltageLevelDraft)
  | addBusbarSection (d : BusbarSectionDraft)
  | addBus (d : BusDraft)
  | addSwitch (d : SwitchDraft)
  | addBusSwitch (d : BusSwitchDraft)
  | addConnectable (d : ConnectableDraft)
  | addConnection (voltageLevel : String) (node1 node2 : Node)
  | setBusbarPosition (id : String) (position : Option BusbarPosition)
  | setFeederPosition (id : String) (position : Option FeederPosition)
  | setSwitchOpen (id : String) (isOpen : Bool)
  | removeSwitch (id : String)
  | removeConnectable (id : String)
  | removeConnections (voltageLevel : String) (node1 node2 : Node)
  | removeVoltageLevel (id : String)
  | removeSubstation (id : String)

/-- What a change answers. -/
inductive Receipt where
  | created (id : String)
  | removed (count : Nat)
  | done
  deriving DecidableEq

def Change.perform : Change → Edit Receipt
  | .addSubstation s => .created <$> s.create
  | .addVoltageLevel d => .created <$> d.create
  | .addBusbarSection d => .created <$> d.create
  | .addBus d => .created <$> d.create
  | .addSwitch d => .created <$> d.create
  | .addBusSwitch d => .created <$> d.create
  | .addConnectable d => .created <$> d.create
  | .addConnection vl node1 node2 => do Edit.addConnection vl node1 node2; return .done
  | .setBusbarPosition id position => do Edit.setBusbarPosition id position; return .done
  | .setFeederPosition id position => do Edit.setFeederPosition id position; return .done
  | .setSwitchOpen id isOpen => do Edit.setSwitchOpen id isOpen; return .done
  | .removeSwitch id => do Edit.removeSwitch id; return .done
  | .removeConnectable id => do Edit.removeConnectable id; return .done
  | .removeConnections vl node1 node2 => .removed <$> Edit.removeConnections vl node1 node2
  | .removeVoltageLevel id => do Edit.removeVoltageLevel id; return .done
  | .removeSubstation id => do Edit.removeSubstation id; return .done

end Switchyard
