import Switchyard.FeederBays
import Switchyard.RailSwitch

namespace Switchyard

open Std

variable [Numbering]

/-- Connects feeders to busbar sections of their voltage level by open copies of
the switches that connect them to parallel busbar sections. Coupling devices are
copied too if asked for. -/
structure FeederConnection where
  connectables : List String := []
  busbarSections : List String := []
  couplings : Bool := false
  couplingBase : Option String := none
  deriving DecidableEq

namespace FeederConnection

def findSections : List String → Run (List BusbarSection)
  | [] => return []
  | id :: rest => do
    let b ← Run.busbarSection id
    return b :: (← findSections rest)

def checkConnectables (n : Network) : List String → Run Unit
  | [] => return
  | id :: rest => do
    if (n.connectable? id).isNone then Run.refuse (.connectableNotFound id)
    checkConnectables n rest

/-- The busbar sections with their positions, all of which have to be in one
voltage level and to have one. -/
def placeTargets (voltageLevel : String) (targets : List BusbarSection) :
    Except Fault (List (Rail × BusbarPosition)) :=
  if targets.any (·.voltageLevel != voltageLevel) then
    .error (.busbarSectionsScattered voltageLevel)
  else
    match targets.mapM fun b => b.position.map (b.rail, ·) with
    | some placed => .ok placed
    | none => .error (.positionsMissing voltageLevel)

/-- A coupling is copied if it leads to another busbar than that of its start,
other switches if they lead to one of the feeders. -/
def keeps (c : FeederConnection) (n : Network) (start : BusbarPosition) (r : RailSwitch) : Bool :=
  if n.isCoupling r then
    c.couplings && r.attachments.any fun a =>
      (n.busbarSections[a.connectable]?.bind (·.position)).any (·.busbarIndex != start.busbarIndex)
  else r.attachments.any (·.connectable ∈ c.connectables)

/-- Copying the switch to the busbar section would repeat a connection. -/
def repeats (n : Network) (target : String) (r : RailSwitch) : Bool :=
  let occurrences := (r.attachments.filter (·.connectable == target)).length
  if r.rail = target then true
  else if !n.isCoupling r then 0 < occurrences
  else
    let sections := (r.attachments.filterMap (n.sectionIndex? ·.connectable)).eraseDups
    if sections.length = 2 then 0 < occurrences else 1 < occurrences

/-- The switches to copy, found from the busbar sections of a section index. -/
def switchesToCopy (c : FeederConnection) (n : Network) (w : Wiring)
    (placed : List (BusbarSection × BusbarPosition)) : ExtTreeMap Node RailSwitch :=
  placed.foldl
    (fun toCopy (b, p) =>
      ((w.railSwitches b.rail).toList.filter (c.keeps n p ·.2)).foldl
        (fun toCopy (node, r) => toCopy.insert node r) toCopy)
    ∅

/-- Copies the switches to busbar sections, and counts the copies. -/
def connectTargets (naming : NamingStrategy) (voltageLevel base : String)
    (toCopy : List (Node × RailSwitch)) : List Rail → Run Nat
  | [] => return 0
  | target :: rest => do
    let n ← Run.network
    let copied := toCopy.filter (!repeats n target.id ·.2)
    Run.copyRailSwitches naming voltageLevel base target.node copied
    return copied.length + (← connectTargets naming voltageLevel base toCopy rest)

/-- Connects the busbar sections of each section index. -/
def connectSections (c : FeederConnection) (naming : NamingStrategy) (voltageLevel base : String)
    (placed : List (BusbarSection × BusbarPosition)) (targets : List (Rail × BusbarPosition)) :
    List Int32 → Run Nat
  | [] => return 0
  | s :: rest => do
    let n ← Run.network
    let w ← Run.lookUp (n.wiring voltageLevel)
    let toCopy := c.switchesToCopy n w (placed.filter (·.2.sectionIndex == s))
    let here := (targets.filter (·.2.sectionIndex == s)).map (·.1)
    let count ← connectTargets naming voltageLevel base toCopy.toList here
    return count + (← connectSections c naming voltageLevel base placed targets rest)

def steps (c : FeederConnection) (naming : NamingStrategy) : Run Unit := do
  if c.busbarSections.isEmpty then Run.refuse .noBusbarSectionGiven
  let found ← findSections c.busbarSections
  let n ← Run.network
  checkConnectables n c.connectables
  let vl := (found.head?.map (·.voltageLevel)).getD ""
  match placeTargets vl found with
  | .error f => Run.refuse f
  | .ok targets =>
    let indices := (ExtTreeSet.ofList (targets.map (·.2.sectionIndex))).toList
    let base := c.couplingBase.getD vl
    let count ← c.connectSections naming vl base (n.placedSections vl) targets indices
    Run.emit (.feedersConnected vl count)

def impact (c : FeederConnection) (n : Network) : Impact :=
  .ofBool <|
    match c.busbarSections.mapM fun id => n.busbarSections[id]? with
    | some (b :: rest) => (placeTargets b.voltageLevel (b :: rest)).isOk
    | _ => false

end FeederConnection

end Switchyard
