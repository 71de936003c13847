import Switchyard.Bay

namespace Switchyard

open Std

variable [Numbering]

/-- How one side of new equipment is connected. -/
structure FeederBay where
  target : String
  order : Option FeederOrder := none
  direction : Direction := .bottom
  name : Option String := none
  deriving DecidableEq

/-- Creates equipment and a feeder bay for each of its sides. With `force`, an
order that cannot be used is a fault. -/
structure FeederBays where
  draft : ConnectableDraft
  bays : List FeederBay
  force : Bool

/-- The value of a field that has to be given. -/
def required {α : Type} (field : String) : Option α → Except Fault α
  | some a => .ok a
  | none => .error (.fieldMissing field)

structure InjectionBayRequest where
  draft : Option InjectionDraft := none
  bay : Option FeederBay := none
  force : Bool := false

def InjectionBayRequest.build (r : InjectionBayRequest) : Except Fault FeederBays := do
  let draft ← required "injection_adder" r.draft
  let bay ← required "feeder_bay" r.bay
  return ⟨.injection draft, [bay], r.force⟩

structure BranchBaysRequest where
  draft : Option BranchDraft := none
  bay1 : Option FeederBay := none
  bay2 : Option FeederBay := none
  force : Bool := false

def BranchBaysRequest.build (r : BranchBaysRequest) : Except Fault FeederBays := do
  let draft ← required "branch_adder" r.draft
  let bay1 ← required "feeder_bay1" r.bay1
  let bay2 ← required "feeder_bay2" r.bay2
  return ⟨.branch draft, [bay1, bay2], r.force⟩

structure TransformerBaysRequest where
  draft : Option TransformerDraft := none
  bay1 : Option FeederBay := none
  bay2 : Option FeederBay := none
  bay3 : Option FeederBay := none
  force : Bool := false

def TransformerBaysRequest.build (r : TransformerBaysRequest) : Except Fault FeederBays := do
  let draft ← required "transformer_adder" r.draft
  let bay1 ← required "feeder_bay1" r.bay1
  let bay2 ← required "feeder_bay2" r.bay2
  let bay3 ← required "feeder_bay3" r.bay3
  return ⟨.transformer draft, [bay1, bay2, bay3], r.force⟩

/-- One side and the place where it is connected. -/
structure BaySide where
  side : Side
  bay : FeederBay
  junction : Junction

/-- A side whose terminal is chosen, `ranked` if its order can be used. -/
structure RankedSide extends BaySide where
  ranked : Bool

/-- Why an order cannot be used at a busbar section. -/
def Network.orderFault? (n : Network) (busbarSection voltageLevel : String)
    (order : FeederOrder) : Except Fault (Option Fault) := do
  if (n.feederOrders voltageLevel).contains order then return some (.orderTaken order)
  match ← n.positionRange busbarSection with
  | none => return some (.noOrderLeft busbarSection)
  | some r =>
    if r.contains order then return none
    else return some (.orderOutOfRange order busbarSection r.low r.high)

namespace FeederBays

/-- Finds the junctions, and checks that orders are given at busbar sections. -/
def findSides : List (Side × FeederBay) → Run (List BaySide)
  | [] => return []
  | (side, bay) :: rest => do
    let junction ← Run.junction bay.target
    match junction, bay.order with
    | .bus _ vl, some order => Run.emit (.orderIgnored order vl)
    | .busbarSection _ vl _, none => Run.refuse (.orderMissing vl)
    | .busbarSection _ vl _, some order => if order < 0 then Run.refuse (.orderNegative order vl)
    | _, _ => pure ()
    return ⟨side, bay, junction⟩ :: (← findSides rest)

/-- Whether an order can be used at a busbar section. -/
def checkOrder (force : Bool) (busbarSection voltageLevel : String) (order : FeederOrder) :
    Run Bool := do
  match ← Run.lookUp ((← Run.network).orderFault? busbarSection voltageLevel order) with
  | none => return true
  | some f =>
    if force then Run.refuse f
    else
      Run.emit (.orderSkipped f)
      return false

/-- Sets the terminals of the draft: the buses, and new nodes for the busbar
sections. `taken` holds the last node chosen in each voltage level. -/
def chooseTerminals (force : Bool) (taken : ExtTreeMap String Node) (draft : ConnectableDraft) :
    List BaySide → Run (ConnectableDraft × List RankedSide)
  | [] => return (draft, [])
  | s :: rest => do
    match s.junction with
    | .bus id vl =>
      let (draft, sides) ← chooseTerminals force taken (draft.attach s.side (.atBus vl id)) rest
      return (draft, ⟨s, false⟩ :: sides)
    | .busbarSection id vl _ =>
      let node ← match taken[vl]? with
        | some last => pure (last + 1)
        | none => Run.nextNode vl
      let ranked ←
        if ((← Run.network).sectionIndex? id).isSome then
          checkOrder force id vl (s.bay.order.getD 0)
        else pure false
      let (draft, sides) ←
        chooseTerminals force (taken.insert vl node) (draft.attach s.side (.atNode vl node)) rest
      return (draft, ⟨s, ranked⟩ :: sides)

/-- Creates the bay of a side at a busbar section, and gives its feeder, if it
gets a position. -/
def createBay (naming : NamingStrategy) (connectable : String) (sided : Bool) (s : RankedSide)
    (busbarSection voltageLevel : String) (sectionNode : Node) : Run (Option Feeder) := do
  let n ← Run.network
  let comparable :=
    !(n.feederOrders voltageLevel).isEmpty || (n.equipmentIn voltageLevel).length == 1
  if !comparable then Run.emit (.feederPositionSkipped voltageLevel connectable)
  let feeder : Feeder := ⟨some (s.bay.name.getD connectable), s.bay.order, s.bay.direction⟩
  let some node := ((n.connectable? connectable).bind (·.terminal? s.side)).bind (·.node?)
    | throw (.nodeLost connectable s.side)
  let rails ← Run.baySections voltageLevel busbarSection sectionNode
  if (n.sectionIndex? busbarSection).isNone then
    Run.emit (.busbarSectionUnplaced busbarSection)
  let base := naming.switchBase connectable (if sided then some s.side else none)
  let fork ← Run.nextNode voltageLevel
  Run.createBay naming voltageLevel ⟨node, fork⟩ base busbarSection rails
  Run.emit (.feederBayCreated voltageLevel busbarSection connectable (rails.length - 1))
  return if comparable && s.ranked then some feeder else none

/-- Creates the bays of the sides, and gives the feeder positions. -/
def createBays (naming : NamingStrategy) (connectable : String) (sided : Bool)
    (position : FeederPosition) : List RankedSide → Run FeederPosition
  | [] => return position
  | s :: rest => do
    match s.junction with
    | .bus id vl =>
      Run.emit (.busFeederCreated vl id connectable)
      createBays naming connectable sided position rest
    | .busbarSection id vl node =>
      match ← createBay naming connectable sided s id vl node with
      | some feeder => createBays naming connectable sided (position.setFeeder feeder s.side) rest
      | none => createBays naming connectable sided position rest

def steps (c : FeederBays) (naming : NamingStrategy) : Run Unit := do
  let sides ← findSides (c.draft.sides.zip c.bays)
  let (draft, sides) ← chooseTerminals c.force ∅ c.draft sides
  let connectable ← Run.edit draft.create
  if draft.owner ≠ (← Run.network).serial then
    Run.edit (Edit.removeConnectable connectable)
    Run.refuse .foreignNetwork
  Run.emit (.connectableCreated connectable draft.kind)
  let position ← createBays naming connectable (draft.sides.length > 1) {} sides
  if !position.isEmpty then Run.edit (Edit.setFeederPosition connectable (some position))

def name (c : FeederBays) : String :=
  match c.draft with
  | .injection _ => "CreateFeederBay"
  | .branch _ => "CreateBranchFeederBays"
  | .transformer _ => "CreateThreeWindingsTransformerFeederBays"

def impact (c : FeederBays) (n : Network) : Impact :=
  .ofBool <| c.bays.all fun bay =>
    match n.junction bay.target with
    | .ok (.bus ..) => true
    | .ok (.busbarSection ..) => bay.order.any (0 ≤ ·)
    | .error _ => false

end FeederBays

end Switchyard
