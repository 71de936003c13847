import Switchyard.Junction
import Switchyard.Slice

namespace Switchyard

variable [Numbering]

/-- The nodes of the switches of a feeder: a breaker from the equipment to the
fork, then disconnectors from the fork to the busbar sections. -/
structure BayNodes where
  equipment : Node
  fork : Node
  deriving DecidableEq

namespace Run

/-- Creates a switch under a free id. Breakers are retained. -/
def createSwitch (voltageLevel : String) (kind : SwitchKind) (id : String) (node1 node2 : Node)
    (isOpen fictitious : Bool) : Run Unit := do
  let draft : SwitchDraft :=
    { voltageLevel, id, kind, node1, node2, isOpen, retained := kind = .breaker, fictitious,
      unique := true }
  emit (.switchCreated (← edit draft.create) kind isOpen)

/-- Creates disconnectors from a fork to busbar sections, closed to `target` only. -/
def createDisconnectors (naming : NamingStrategy) (voltageLevel : String) (fork : Node)
    (base target : String) : List Rail → Run Unit
  | [] => return
  | rail :: rest => do
    createSwitch voltageLevel .disconnector
      (naming.busbarDisconnector rail.id base fork rail.node) fork rail.node
      (rail.id != target) false
    createDisconnectors naming voltageLevel fork base target rest

/-- Creates the breaker and the disconnectors of a feeder bay. -/
def createBay (naming : NamingStrategy) (voltageLevel : String) (bay : BayNodes)
    (base target : String) (rails : List Rail) : Run Unit := do
  createSwitch voltageLevel .breaker (naming.breaker base) bay.equipment bay.fork false false
  createDisconnectors naming voltageLevel bay.fork base target rails

/-- Joins two nodes by a disconnector, or by a breaker between two disconnectors
on two new nodes. -/
def createSectionLink (naming : NamingStrategy) (voltageLevel base : String) (kind : SwitchKind)
    (node1 node2 : Node) (fictitious : Bool) : Run Unit := do
  let disconnect (a b : Node) : Run Unit :=
    createSwitch voltageLevel .disconnector (naming.disconnector base a b) a b false fictitious
  if kind = .breaker then
    let first ← nextNode voltageLevel
    let second := first + 1
    disconnect node1 first
    createSwitch voltageLevel .breaker (naming.breakerBetween base first second) first second false
      fictitious
    disconnect second node2
  else disconnect node1 node2

/-- Creates a closed breaker between two buses under a free id. -/
def createBusSwitch (voltageLevel id bus1 bus2 : String) : Run Unit := do
  let draft : BusSwitchDraft := { voltageLevel, id, bus1, bus2, unique := true }
  emit (.switchCreated (← edit draft.create) .breaker false)

/-- The busbar sections that a bay at a busbar section connects to: those
parallel to it, or the section alone if it has no position. -/
def baySections (voltageLevel busbarSection : String) (node : Node) : Run (List Rail) := do
  let n ← network
  match n.sectionIndex? busbarSection with
  | some s => return (n.parallelSections voltageLevel s).map (·.rail)
  | none => return [⟨busbarSection, node⟩]

end Run

end Switchyard
