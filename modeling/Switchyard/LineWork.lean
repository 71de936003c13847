import Switchyard.FeederBays
import Switchyard.Tee

namespace Switchyard

variable [Numbering]

/-- Two things, one for each half of a line. -/
structure Halves (α : Type) where
  first : α
  second : α

def percentInRange (percent : Float) : Bool :=
  0 ≤ percent && percent ≤ 100

/-- The part of a line at side 1, `percent` percent of it, still without its
terminal at the new end. -/
def Branch.firstPart (b : Branch) (owner : Nat) (id : String) (name : Option String)
    (percent : Float) : BranchDraft :=
  { owner, id, name, terminal1 := some b.terminal1, limits1 := b.limits1
    parameters := b.parameters.scaled percent }

/-- The part of a line at side 2, all but `percent` percent of it, still without
its terminal at the new end. -/
def Branch.secondPart (b : Branch) (owner : Nat) (id : String) (name : Option String)
    (percent : Float) : BranchDraft :=
  { owner, id, name, terminal2 := some b.terminal2, limits2 := b.limits2
    parameters := b.parameters.scaled (100 - percent) }

/-- The line made of two lines that meet on the given sides. -/
def mergedLine (owner : Nat) (id : String) (name : Option String) (line1 line2 : Branch)
    (side1 side2 : Side) : BranchDraft :=
  { owner, id, name
    terminal1 := some (line1.terminal side1.opposite)
    terminal2 := some (line2.terminal side2.opposite)
    parameters := line1.parameters.merged line2.parameters
    limits1 := (line1.limits side1.opposite).merge (line1.limits side1)
    limits2 := (line2.limits side2.opposite).merge (line2.limits side2) }

namespace Run

def line (id : String) : Run Branch := do
  match (← network).line? id with
  | some b => return b
  | none => refuse (.lineNotFound id)

def checkPercent (percent : Float) : Run Unit := do
  if !percentInRange percent then refuse (.percentOutOfRange percent)

/-- Checks that new ids are distinct and not in use, but for the ids of what is
to be removed. -/
def checkNewIds (replaced earlier : List String) : List String → Run Unit
  | [] => return
  | id :: rest => do
    if (← network).contains id && id ∉ replaced || id ∈ earlier then refuse (.idExists id)
    checkNewIds replaced (id :: earlier) rest

/-- Removes a line. The switches around its terminals are left in place. -/
def removeLine (id : String) : Run Unit := do
  edit (Edit.removeConnectable id)
  emit (.lineRemoved id)

def removeLines : List String → Run Unit
  | [] => return
  | id :: rest => do
    removeLine id
    removeLines rest

def createLine (d : BranchDraft) : Run String := do
  let id ← edit d.create
  emit (.lineCreated id)
  return id

/-- Warns of temporary limits that cannot be kept at a point merged away. -/
def warnOfLostLimits (line : Branch) (side : Side) : Run Unit := do
  if (line.limits side.opposite).clash (line.limits side) then emit (.limitsLost line.id)

/-- Creates a feeder bay to a busbar section, and open disconnectors to the
sections parallel to it. -/
def createLineBay (naming : NamingStrategy) (voltageLevel : String) (rail : Rail) (base : String)
    (bay : BayNodes) : Run Unit := do
  let rails ← baySections voltageLevel rail.id rail.node
  let placed := ((← network).sectionIndex? rail.id).isSome
  createBay naming voltageLevel bay base rail.id rails
  if !placed then emit (.busbarSectionUnplaced rail.id)

/-- Creates a bus joined to another one by a closed switch. -/
def createBusBay (naming : NamingStrategy) (voltageLevel bus base : String) : Run Terminal := do
  let draft : BusDraft := { voltageLevel, id := naming.bus base, unique := true }
  let id ← edit draft.create
  emit (.busCreated id)
  createBusSwitch voltageLevel (naming.switch base) id bus
  return .atBus voltageLevel id

/-- Creates the bays of two lines at a busbar section. The first one takes the
first free node for its line and the next one for its fork, the second one the
two after them the other way round. -/
def createTwoBays (naming : NamingStrategy) (voltageLevel : String) (rail : Rail)
    (base1 base2 : String) : Run (Halves Terminal) := do
  let first ← nextNode voltageLevel
  createLineBay naming voltageLevel rail base1 ⟨first, first + 1⟩
  createLineBay naming voltageLevel rail base2 ⟨first + 3, first + 2⟩
  return ⟨.atNode voltageLevel first, .atNode voltageLevel (first + 3)⟩

/-- Prunes the bays around terminals that lines left. -/
def pruneLeft : List (String × Terminal) → Run Unit
  | [] => return
  | (line, t) :: rest => do
    pruneBays line [t]
    pruneLeft rest

/-- Removes a voltage level left without equipment, then its substation if that
is left without voltage levels. -/
def removeVoltageLevelLeft (voltageLevel : String) : Run Unit := do
  let n ← network
  if !(n.equipmentIn voltageLevel).isEmpty then emit (.voltageLevelKept voltageLevel)
  else
    let substation := n.voltageLevels[voltageLevel]?.bind (·.substation)
    edit (Edit.removeVoltageLevel voltageLevel)
    emit (.voltageLevelRemoved voltageLevel)
    match substation with
    | none => pure ()
    | some id =>
      if ((← network).voltageLevelsIn id).isEmpty then
        edit (Edit.removeSubstation id)
        emit (.substationRemoved id)

end Run

end Switchyard
