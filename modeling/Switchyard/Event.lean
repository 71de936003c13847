import Switchyard.Fault

namespace Switchyard

inductive Severity where
  | info
  | warn
  | error
  deriving DecidableEq

def Severity.text : Severity → String
  | .info => "Info"
  | .warn => "Warn"
  | .error => "Error"

def Severity.rank : Severity → Nat
  | .info => 0
  | .warn => 1
  | .error => 2

/-- The written form of an event. -/
structure Report where
  key : String
  severity : Severity
  message : String
  values : List (String × String) := []
  deriving DecidableEq

def Report.value? (r : Report) (name : String) : Option String :=
  r.values.lookup name

def Report.text (r : Report) : String :=
  s!"[{r.severity.text}] {r.key}: {r.message}"

/-- What happens while a modification is applied. -/
inductive Event where
  | refused (fault : Fault)
  | failed (fault : Fault)
  | orderSkipped (fault : Fault)
  | orderIgnored (order : FeederOrder) (voltageLevel : String)
  | feederPositionSkipped (voltageLevel connectable : String)
  | busbarSectionUnplaced (busbarSection : String)
  | connectableCreated (id : String) (kind : ObjectKind)
  | feederBayCreated (voltageLevel busbarSection connectable : String) (parallel : Nat)
  | busFeederCreated (voltageLevel bus connectable : String)
  | connectableRemoved (id : String) (kind : ObjectKind)
  | switchRemoved (id : String)
  | connectionRemoved (node1 node2 : Node)
  | pruningStopped (connectable : String) (node : Node)
  | switchCreated (id : String) (kind : SwitchKind) (isOpen : Bool)
  | busbarSectionCreated (id : String) (position : BusbarPosition)
  | busCreated (id : String)
  | sectionsShifted (voltageLevel : String) (first : Int32)
  | couplingCreated (voltageLevel id1 id2 : String)
  | openDisconnectorsCreated (busbarSection : String) (count : Nat)
  | gridCreated (voltageLevel : String) (busbarCount sectionCount : Int32)
  | feedersConnected (voltageLevel : String) (count : Nat)
  | lineCreated (id : String)
  | lineRemoved (id : String)
  | voltageLevelCreated (id : String)
  | substationCreated (id : String)
  | voltageLevelRemoved (id : String)
  | substationRemoved (id : String)
  | voltageLevelKept (id : String)
  | limitsLost (line : String)
  | lineTapped (tap line1 line2 line : String)
  | lineCut (voltageLevel line1 line2 line : String)
  | linesMerged (merged line1 line2 : String)
  | teePointReplaced (teePoint voltageLevel line1 line2 : String)
  deriving DecidableEq

/-- The report of a fault that a modification finds by its own checks. Other
faults are reported as the failure of the whole modification. -/
def Fault.report (f : Fault) (severity : Severity) : Report :=
  let written (key : String) (values : List (String × String)) : Report :=
    ⟨key, severity, f.message, values⟩
  match f with
  | .attachmentNotFound id => written "notFoundBusOrBusbarSection" [("identifiableId", id)]
  | .busbarSectionNotFound id => written "notFoundBusbarSection" [("busbarSectionId", id)]
  | .connectableNotFound id => written "notFoundConnectable" [("connectableId", id)]
  | .lineNotFound id => written "notFoundLine" [("lineId", id)]
  | .voltageLevelNotFound id => written "notFoundVoltageLevel" [("voltageLevelId", id)]
  | .unexpectedKind id kind =>
    written "unexpectedIdentifiableType" [("identifiableId", id), ("identifiableType", kind.text)]
  | .foreignNetwork => written "networkMismatch" []
  | .orderMissing vl => written "unexpectedNullPositionOrder" [("voltageLevelId", vl)]
  | .orderNegative order vl =>
    written "unexpectedNegativePositionOrder"
      [("positionOrder", toString order.toInt), ("voltageLevelId", vl)]
  | .orderTaken order =>
    written "positionOrderAlreadyTaken" [("positionOrder", toString order.toInt)]
  | .orderOutOfRange order bbs _ _ =>
    written "positionOrderOutOfRange"
      [("positionOrder", toString order.toInt), ("busbarSectionId", bbs)]
  | .noOrderLeft bbs => written "positionNoSlotLeftByAdjacentBbs" [("busbarSectionId", bbs)]
  | .positionsMissing vl => written "busbarSectionsWithoutPosition" [("voltageLevelId", vl)]
  | .feederIsBusbarSection id => written "removeFeederBayBusbarSection" [("busbarSectionId", id)]
  | .noNeighbour bbs => written "failToInsertBusbarSection" [("busbarSectionId", bbs)]
  | .coupledWithItself id => written "noCouplingDeviceOnSameBusOrBusbarSection" [("busOrBbsId", id)]
  | .differentVoltageLevels id1 id2 =>
    written "unexpectedDifferentVoltageLevels" [("busOrBbsId1", id1), ("busOrBbsId2", id2)]
  | .quantityTooLow quantity count least =>
    written "countLowerThanMin"
      [("type", quantity.text), ("count", toString count), ("min", toString least)]
  | .switchKindCount count expected =>
    written "unexpectedSwitchKindsCount"
      [("switchKindsCount", toString count), ("expectedSwitchKindsCount", toString expected)]
  | .switchKindRefused kind => written "unsupportedSwitchKind" [("switchKind", kind.text)]
  | .positionTaken vl => written "busbarPositionAlreadyTaken" [("voltageLevelId", vl)]
  | .noBusbarSectionGiven => written "noBusbarSectionProvided" []
  | .busbarSectionsScattered vl =>
    written "busbarSectionsInDifferentVoltageLevels" [("voltageLevelId", vl)]
  | .percentOutOfRange percent => written "invalidPercent" [("percent", decimalText percent)]
  | .noTeePoint line1 line2 line3 =>
    written "noTeePointAndOrTappedVoltageLevel"
      [("line1Id", line1), ("line2Id", line2), ("line3Id", line3)]
  | .noCommonVoltageLevel line1 line2 =>
    written "noVoltageLevelInCommon" [("line1Id", line1), ("line2Id", line2)]
  | .substationIdMissing => written "undefinedFictitiousSubstationId" []
  | .idExists id => written "identifiableAlreadyExists" [("identifiableId", id)]
  | .foreignLine id => written "lineAdderNetworkMismatch" [("lineId", id)]
  | .notInVoltageLevel id vl =>
    written "busOrBbsNotInVoltageLevel" [("busOrBbsId", id), ("voltageLevelId", vl)]
  | _ => ⟨"modificationFailed", severity, f.text, [("errorKind", f.kind.text)]⟩

def Event.report : Event → Report
  | .refused fault => fault.report .error
  | .failed fault => ⟨"modificationFailed", .error, fault.text, [("errorKind", fault.kind.text)]⟩
  | .orderSkipped fault => fault.report .warn
  | .orderIgnored order vl =>
    ⟨"ignoredPositionOrder", .warn,
      s!"Voltage level {vl} is BUS_BREAKER. Position order {order.toInt} is ignored.",
      [("positionOrder", toString order.toInt), ("voltageLevelId", vl)]⟩
  | .feederPositionSkipped vl connectable =>
    ⟨"noConnectablePositionExtension", .warn,
      s!"No extensions found on voltage level {vl}. " ++
        s!"The extension on the connectable {connectable} is not created.",
      [("voltageLevelId", vl), ("connectableId", connectable)]⟩
  | .busbarSectionUnplaced bbs =>
    ⟨"noBusbarSectionPositionExtension", .warn,
      s!"No busbar section position extension found on {bbs}, only one disconnector is created.",
      [("busbarSectionId", bbs)]⟩
  | .connectableCreated id kind =>
    ⟨"newConnectableAdded", .info, s!"New connectable {id} of type {kind.text} created.",
      [("connectableId", id), ("connectableType", kind.text)]⟩
  | .feederBayCreated vl bbs connectable parallel =>
    ⟨"newNodeBreakerFeederBay", .info,
      s!"New feeder bay for {connectable} in voltage level {vl} connected to busbar section " ++
        s!"{bbs} and to {parallel} parallel busbar sections.",
      [("voltageLevelId", vl), ("busbarSectionId", bbs), ("connectableId", connectable),
        ("parallelBusbarSectionCount", toString parallel)]⟩
  | .busFeederCreated vl bus connectable =>
    ⟨"newBusBreakerFeeder", .info,
      s!"{connectable} connected to bus {bus} in voltage level {vl}.",
      [("voltageLevelId", vl), ("busId", bus), ("connectableId", connectable)]⟩
  | .connectableRemoved id kind =>
    ⟨"removedConnectable", .info, s!"Connectable {id} of type {kind.text} removed.",
      [("connectableId", id), ("connectableType", kind.text)]⟩
  | .switchRemoved id => ⟨"removedSwitch", .info, s!"Switch {id} removed.", [("switchId", id)]⟩
  | .connectionRemoved node1 node2 =>
    ⟨"removedInternalConnection", .info,
      s!"Internal connection between {node1} and {node2} removed.",
      [("node1", toString node1), ("node2", toString node2)]⟩
  | .pruningStopped connectable node =>
    ⟨"removeFeederBayAborted", .warn,
      s!"Removal of the feeder bay of {connectable} stopped at node {node}: " ++
        "the fork is shared with other equipment.",
      [("connectableId", connectable), ("node", toString node)]⟩
  | .switchCreated id kind isOpen =>
    let state := if isOpen then "open" else "closed"
    ⟨"switchCreated", .info, s!"New {state} {kind.text} {id} created.",
      [("switchId", id), ("switchKind", kind.text)]⟩
  | .busbarSectionCreated id position =>
    ⟨"busbarSectionCreated", .info,
      s!"New busbar section {id} created at busbar {position.busbarIndex}, " ++
        s!"section {position.sectionIndex}.",
      [("busbarSectionId", id), ("busbarIndex", toString position.busbarIndex),
        ("sectionIndex", toString position.sectionIndex)]⟩
  | .busCreated id => ⟨"busCreated", .info, s!"New bus {id} created.", [("busId", id)]⟩
  | .sectionsShifted vl first =>
    ⟨"busbarSectionsRenumbered", .info,
      s!"Section indices of voltage level {vl} from {first} on have been incremented.",
      [("voltageLevelId", vl), ("firstSectionIndex", toString first)]⟩
  | .couplingCreated vl id1 id2 =>
    ⟨"newCouplingDeviceAdded", .info,
      s!"New coupling device between {id1} and {id2} added in voltage level {vl}.",
      [("voltageLevelId", vl), ("busOrBbsId1", id1), ("busOrBbsId2", id2)]⟩
  | .openDisconnectorsCreated bbs count =>
    ⟨"openDisconnectorsAddedOnParallelBusbars", .info,
      s!"{count} open disconnectors created on the busbar sections parallel to {bbs}.",
      [("busbarSectionId", bbs), ("count", toString count)]⟩
  | .gridCreated vl busbarCount sectionCount =>
    ⟨"newSymmetricalTopology", .info,
      s!"New symmetrical topology in voltage level {vl}: creation of {busbarCount} busbar(s) " ++
        s!"with {sectionCount} section(s) each.",
      [("voltageLevelId", vl), ("busbarCount", toString busbarCount),
        ("sectionCount", toString sectionCount)]⟩
  | .feedersConnected vl count =>
    ⟨"feedersConnectedToBusbarSections", .info,
      s!"{count} switches created to connect feeders to the new busbar sections of voltage " ++
        s!"level {vl}.",
      [("voltageLevelId", vl), ("switchCount", toString count)]⟩
  | .lineCreated id => ⟨"lineCreated", .info, s!"Line {id} created", [("lineId", id)]⟩
  | .lineRemoved id => ⟨"lineRemoved", .info, s!"Line {id} removed", [("lineId", id)]⟩
  | .voltageLevelCreated id =>
    ⟨"voltageLevelCreated", .info, s!"Voltage level {id} created", [("voltageLevelId", id)]⟩
  | .substationCreated id =>
    ⟨"substationCreated", .info, s!"Substation {id} created", [("substationId", id)]⟩
  | .voltageLevelRemoved id =>
    ⟨"voltageLevelRemoved", .info, s!"Voltage level {id} removed", [("voltageLevelId", id)]⟩
  | .substationRemoved id =>
    ⟨"substationRemoved", .info, s!"Substation {id} removed", [("substationId", id)]⟩
  | .voltageLevelKept id =>
    ⟨"voltageLevelRemovingEquipmentsLeft", .warn,
      s!"Voltage level {id} still contains equipments and is not removed",
      [("voltageLevelId", id)]⟩
  | .limitsLost line =>
    ⟨"limitsLost", .warn,
      s!"Temporary limits on both sides of the merge point of line {line} are ignored",
      [("lineId", line)]⟩
  | .lineTapped tap line1 line2 line =>
    ⟨"newLineOnLineCreated", .info,
      s!"New line {tap} was created and connected on a tee point to lines {line1} and {line2} " ++
        s!"replacing line {line}",
      [("newLineId", tap), ("line1Id", line1), ("line2Id", line2), ("originalLineId", line)]⟩
  | .lineCut vl line1 line2 line =>
    ⟨"voltageLevelConnectedOnLine", .info,
      s!"Voltage level {vl} connected to lines {line1} and {line2} replacing line {line}",
      [("voltageLevelId", vl), ("line1Id", line1), ("line2Id", line2), ("originalLineId", line)]⟩
  | .linesMerged merged line1 line2 =>
    ⟨"linesMerged", .info, s!"Lines {line1} and {line2} merged into line {merged}",
      [("mergedLineId", merged), ("line1Id", line1), ("line2Id", line2)]⟩
  | .teePointReplaced tee vl line1 line2 =>
    ⟨"teePointReplacedByVoltageLevel", .info,
      s!"Tee point {tee} replaced by voltage level {vl}, connected to lines {line1} and {line2}",
      [("teePointId", tee), ("voltageLevelId", vl), ("newLine1Id", line1),
        ("newLine2Id", line2)]⟩

def Event.severity (e : Event) : Severity :=
  e.report.severity

def Event.isError (e : Event) : Bool :=
  e.severity = .error

end Switchyard
