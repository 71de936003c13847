import Switchyard.FeederBays

namespace Switchyard

variable [Numbering]

/-- Removes equipment, with the switches and internal connections of its feeder
bays that nothing else depends on. -/
structure FeederRemoval where
  connectable : String
  deriving DecidableEq

structure FeederRemovalRequest where
  connectable : Option String := none

def FeederRemovalRequest.build (r : FeederRemovalRequest) : Except Fault FeederRemoval := do
  return ⟨← required "connectable_id" r.connectable⟩

namespace FeederRemoval

/-- Gives up at once on a missing connectable or a busbar section. Faults of the
pruning and of the removal are raised in every mode, without a report. -/
def steps (c : FeederRemoval) (strict : Bool) : Run Unit := do
  match (← Run.network).connectable? c.connectable with
  | none => Run.giveUp strict (.connectableNotFound c.connectable)
  | some found =>
    if found.isBusbarSection then Run.giveUp strict (.feederIsBusbarSection c.connectable)
    else
      Run.pruneBays c.connectable (found.terminals.map (·.2))
      Run.edit (Edit.removeConnectable c.connectable)
      Run.emit (.connectableRemoved c.connectable found.kind)

def impact (c : FeederRemoval) (n : Network) : Impact :=
  .ofBool ((n.connectable? c.connectable).any (!·.isBusbarSection))

end FeederRemoval

end Switchyard
