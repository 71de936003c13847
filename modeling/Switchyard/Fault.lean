import Switchyard.Decimal
import Switchyard.Position

namespace Switchyard

inductive FaultKind where
  | notFound
  | topologyMismatch
  | conflict
  | crossNetwork
  | missingExtension
  | invalidArgument
  | unsupportedType
  | internal
  deriving DecidableEq

def FaultKind.text : FaultKind → String
  | .notFound => "NotFound"
  | .topologyMismatch => "TopologyMismatch"
  | .conflict => "Conflict"
  | .crossNetwork => "CrossNetwork"
  | .missingExtension => "MissingExtension"
  | .invalidArgument => "InvalidArgument"
  | .unsupportedType => "UnsupportedType"
  | .internal => "Internal"

/-- A number that a modification checks against a lower bound. -/
inductive Quantity where
  | lowBusbarIndex
  | busbarCount
  | lowSectionIndex
  | sectionCount
  deriving DecidableEq

def Quantity.text : Quantity → String
  | .lowBusbarIndex => "low busbar index"
  | .busbarCount => "busbar count"
  | .lowSectionIndex => "low section index"
  | .sectionCount => "section count"

/-- Why a change is refused. -/
inductive Fault where
  | substationNotFound (id : String)
  | voltageLevelNotFound (id : String)
  | busNotFound (bus voltageLevel : String)
  | busbarSectionNotFound (id : String)
  | switchNotFound (id : String)
  | connectableNotFound (id : String)
  | feederNotFound (id : String)
  | lineNotFound (id : String)
  | attachmentNotFound (id : String)
  | noBusbarSectionIn (voltageLevel : String)
  | notNodeBreaker (voltageLevel : String)
  | notBusBreaker (voltageLevel : String)
  | idTaken (network : String) (kind : ObjectKind) (id : String)
  | nodeTaken (node : Node) (voltageLevel owner : String)
  | nodeOccupied (node : Node) (owner : String)
  | nodeShared (node : Node) (voltageLevel : String)
  | switchLoop (id : String) (node : Node)
  | connectionLoop (node : Node)
  | injectionUnattached (id : String)
  | branchUnattached (id : String)
  | transformerUnattached (id : String)
  | voltageLevelInUse (id : String) (equipment : List String)
  | substationInUse (id : String)
  | fieldMissing (field : String)
  | draftOfNoLine (id : String)
  | unexpectedKind (id : String) (kind : ObjectKind)
  | foreignNetwork
  | orderMissing (voltageLevel : String)
  | orderNegative (order : FeederOrder) (voltageLevel : String)
  | orderTaken (order : FeederOrder)
  | orderOutOfRange (order : FeederOrder) (busbarSection : String) (low high : FeederOrder)
  | noOrderLeft (busbarSection : String)
  | positionMissing (busbarSection : String)
  | positionsMissing (voltageLevel : String)
  | feederIsBusbarSection (id : String)
  | noNeighbour (busbarSection : String)
  | coupledWithItself (id : String)
  | differentVoltageLevels (id1 id2 : String)
  | quantityTooLow (quantity : Quantity) (count least : Int32)
  | switchKindCount (count expected : Nat)
  | switchKindRefused (kind : SwitchKind)
  | positionTaken (voltageLevel : String)
  | noBusbarSectionGiven
  | busbarSectionsScattered (voltageLevel : String)
  | percentOutOfRange (percent : Float)
  | noTeePoint (line1 line2 line3 : String)
  | noCommonVoltageLevel (line1 line2 : String)
  | substationIdMissing
  | idExists (id : String)
  | foreignLine (id : String)
  | notInVoltageLevel (id voltageLevel : String)
  | switchVoltageLevelLost (id voltageLevel : String)
  | switchLost (id voltageLevel : String)
  | nodeLost (connectable : String) (side : Side)
  | positionLost (busbarSection : String)
  | mixedCoupling (id1 id2 : String)
  deriving DecidableEq

def Fault.kind : Fault → FaultKind
  | .substationNotFound .. | .voltageLevelNotFound .. | .busNotFound .. | .busbarSectionNotFound ..
  | .switchNotFound .. | .connectableNotFound .. | .feederNotFound .. | .lineNotFound ..
  | .attachmentNotFound .. | .noBusbarSectionIn .. | .noNeighbour .. | .noTeePoint .. => .notFound
  | .notNodeBreaker .. | .notBusBreaker .. | .differentVoltageLevels .. | .noCommonVoltageLevel ..
  | .busbarSectionsScattered .. | .notInVoltageLevel .. => .topologyMismatch
  | .idTaken .. | .nodeTaken .. | .nodeOccupied .. | .nodeShared .. | .voltageLevelInUse ..
  | .substationInUse .. | .orderTaken .. | .orderOutOfRange .. | .noOrderLeft ..
  | .positionTaken .. | .idExists .. => .conflict
  | .foreignNetwork | .foreignLine .. => .crossNetwork
  | .orderMissing .. | .positionMissing .. | .positionsMissing .. => .missingExtension
  | .switchLoop .. | .connectionLoop .. | .injectionUnattached .. | .branchUnattached ..
  | .transformerUnattached .. | .fieldMissing .. | .draftOfNoLine .. | .orderNegative ..
  | .coupledWithItself .. | .quantityTooLow .. | .switchKindCount .. | .switchKindRefused ..
  | .noBusbarSectionGiven | .percentOutOfRange .. | .substationIdMissing => .invalidArgument
  | .unexpectedKind .. | .feederIsBusbarSection .. => .unsupportedType
  | .switchVoltageLevelLost .. | .switchLost .. | .nodeLost .. | .positionLost ..
  | .mixedCoupling .. => .internal

def Fault.message : Fault → String
  | .substationNotFound id => s!"Substation {id} not found"
  | .voltageLevelNotFound id => s!"Voltage level {id} not found"
  | .busNotFound bus vl => s!"Bus {bus} not found in voltage level {vl}"
  | .busbarSectionNotFound id => s!"Busbar section {id} not found"
  | .switchNotFound id => s!"Switch {id} not found"
  | .connectableNotFound id => s!"Connectable {id} not found"
  | .feederNotFound id => s!"Connectable {id} not found or has no feeder position"
  | .lineNotFound id => s!"Line {id} not found"
  | .attachmentNotFound id => s!"Bus or busbar section {id} not found"
  | .noBusbarSectionIn vl => s!"Voltage level {vl} has no busbar section."
  | .notNodeBreaker vl => s!"Voltage level {vl} is not in node-breaker topology"
  | .notBusBreaker vl => s!"Voltage level {vl} is not in bus-breaker topology"
  | .idTaken network kind id =>
    s!"The network {network} already contains an object '{kind.text}' with the id '{id}'"
  | .nodeTaken node vl owner => s!"Node {node} of voltage level {vl} is already used by {owner}"
  | .nodeOccupied node owner => s!"Node {node} is already used by {owner}"
  | .nodeShared node vl => s!"Two sides are attached to node Some({node}) of voltage level {vl}"
  | .switchLoop id node => s!"Switch {id} connects node {node} to itself"
  | .connectionLoop node => s!"Internal connection on node {node} connects it to itself"
  | .injectionUnattached id => s!"Injection {id}: terminal is not set"
  | .branchUnattached id => s!"Branch {id}: both terminals must be set"
  | .transformerUnattached id =>
    s!"Three windings transformer {id}: all three terminals must be set"
  | .voltageLevelInUse id equipment =>
    s!"Voltage level {id} still has connected equipment: " ++ String.intercalate ", " equipment
  | .substationInUse id => s!"Substation {id} still contains voltage levels"
  | .fieldMissing field => s!"{field} is required"
  | .draftOfNoLine id => s!"line_adder of {id} must create a line"
  | .unexpectedKind id kind => s!"Unexpected type of identifiable {id}: {kind.text}"
  | .foreignNetwork =>
    "Network given in parameters and in connectableAdder are different. " ++
      "Connectable was added then removed"
  | .orderMissing vl => s!"Position order is null for attachment in node-breaker voltage level {vl}"
  | .orderNegative order vl =>
    s!"Position order is negative ({order.toInt}) for attachment in voltage level {vl}"
  | .orderTaken order =>
    s!"PositionOrder {order.toInt} already taken. No position extension created."
  | .orderOutOfRange order bbs low high =>
    s!"PositionOrder {order.toInt} is outside of the range [{low.toInt}, {high.toInt}] left by " ++
      s!"the feeders around busbar section {bbs}. No position extension created."
  | .noOrderLeft bbs =>
    s!"No free position order left around busbar section {bbs}. No position extension created."
  | .positionMissing bbs => s!"Busbar section {bbs} has no position extension"
  | .positionsMissing vl => s!"Some busbar sections of voltage level {vl} have no position extension"
  | .feederIsBusbarSection id =>
    s!"BusbarSection connectables are not allowed as RemoveFeederBay input: {id}"
  | .noNeighbour bbs =>
    s!"No busbar section found next to {bbs}: cannot insert a section in between"
  | .coupledWithItself id =>
    s!"No coupling device can be created on a same bus or busbar section ({id})"
  | .differentVoltageLevels id1 id2 => s!"{id1} and {id2} are in two different voltage levels."
  | .quantityTooLow quantity count least =>
    s!"{quantity.text} must be >= {least} (found {count})"
  | .switchKindCount count expected =>
    s!"Unexpected switch kinds count ({count}). Should be {expected}"
  | .switchKindRefused kind => s!"Switch kinds must be DISCONNECTOR or BREAKER, found {kind.text}"
  | .positionTaken vl =>
    s!"A busbar section of voltage level {vl} already has one of the positions to create"
  | .noBusbarSectionGiven => "No busbar section provided"
  | .busbarSectionsScattered vl => s!"All busbar sections must be in voltage level {vl}"
  | .percentOutOfRange percent =>
    s!"Percent should be greater than 0.0 and lower than 100.0 ({decimalText percent})"
  | .noTeePoint line1 line2 line3 =>
    s!"Unable to find the tee point and the tapped voltage level from lines {line1}, {line2} " ++
      s!"and {line3}"
  | .noCommonVoltageLevel line1 line2 =>
    s!"Lines {line1} and {line2} should have one and only one voltage level in common"
  | .substationIdMissing =>
    "Fictitious substation id must be defined if a fictitious substation is to be created"
  | .idExists id => s!"An identifiable with id {id} already exists"
  | .foreignLine id => s!"Adder of line {id} belongs to another network"
  | .notInVoltageLevel id vl => s!"Bus or busbar section {id} is not in voltage level {vl}"
  | .switchVoltageLevelLost id vl => s!"Voltage level {vl} of switch {id} is missing"
  | .switchLost id vl => s!"Switch {id} is indexed but missing from voltage level {vl}"
  | .nodeLost connectable side => s!"{connectable} has no node on side {side.text}"
  | .positionLost bbs => s!"Busbar section {bbs} lost its position"
  | .mixedCoupling id1 id2 => s!"{id1} and {id2} are not both buses or both busbar sections"

/-- The kind of the fault, then what is wrong. -/
def Fault.text (f : Fault) : String :=
  f.kind.text ++ ": " ++ f.message

end Switchyard
