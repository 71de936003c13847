import Switchyard.Event
import Switchyard.Proofs.Maps

namespace Switchyard

open Std

/-- What a report tells of the ids in use. -/
inductive IdChange where
  | add (id : String)
  | remove (id : String)
  | clear (voltageLevel : String)
  deriving DecidableEq

def Report.idChange? (r : Report) : Option IdChange :=
  match r.key with
  | "switchCreated" => (r.value? "switchId").map .add
  | "busbarSectionCreated" => (r.value? "busbarSectionId").map .add
  | "busCreated" => (r.value? "busId").map .add
  | "lineCreated" => (r.value? "lineId").map .add
  | "newConnectableAdded" => (r.value? "connectableId").map .add
  | "voltageLevelCreated" => (r.value? "voltageLevelId").map .add
  | "substationCreated" => (r.value? "substationId").map .add
  | "removedSwitch" => (r.value? "switchId").map .remove
  | "lineRemoved" => (r.value? "lineId").map .remove
  | "removedConnectable" => (r.value? "connectableId").map .remove
  | "substationRemoved" => (r.value? "substationId").map .remove
  | "voltageLevelRemoved" => (r.value? "voltageLevelId").map .clear
  | _ => none

def Event.idChange? : Event → Option IdChange
  | .switchCreated id .. | .busbarSectionCreated id _ | .busCreated id | .lineCreated id
  | .connectableCreated id _ | .voltageLevelCreated id | .substationCreated id => some (.add id)
  | .switchRemoved id | .lineRemoved id | .connectableRemoved id _ | .substationRemoved id =>
    some (.remove id)
  | .voltageLevelRemoved id => some (.clear id)
  | _ => none

theorem Fault.idChange?_report (f : Fault) (severity : Severity) :
    (f.report severity).idChange? = none := by
  cases f <;> rfl

theorem Fault.severity_report (f : Fault) (severity : Severity) :
    (f.report severity).severity = severity := by
  cases f <;> rfl

theorem Event.idChange?_report (e : Event) : e.report.idChange? = e.idChange? := by
  cases e <;> first | rfl | exact Fault.idChange?_report _ _

theorem Event.isError_iff (e : Event) :
    e.isError = true ↔ (∃ f, e = .refused f) ∨ ∃ f, e = .failed f := by
  cases e <;> simp [isError, severity, report, Fault.severity_report]

end Switchyard
