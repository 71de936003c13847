import Switchyard.FeederBays
import Switchyard.RailSwitch

namespace Switchyard

open Std

variable [Numbering]

/-- Creates busbars of as many sections each in a voltage level, as busbar
sections or as buses. -/
structure Grid where
  voltageLevel : String
  lowBusbar : Int32
  busbarCount : Int32
  lowSection : Int32
  sectionCount : Int32
  base : Option String
  switchBase : Option String
  switchKinds : List SwitchKind
  connectExisting : Bool
  deriving DecidableEq

structure GridRequest where
  voltageLevel : Option String := none
  lowBusbar : Int32 := 1
  busbarCount : Option Int32 := none
  lowSection : Int32 := 1
  sectionCount : Option Int32 := none
  base : Option String := none
  switchBase : Option String := none
  switchKinds : List SwitchKind := []
  connectExisting : Bool := false

def GridRequest.build (r : GridRequest) : Except Fault Grid := do
  let voltageLevel ← required "voltage_level_id" r.voltageLevel
  let busbarCount ← required "busbar_count" r.busbarCount
  let sectionCount ← required "section_count" r.sectionCount
  return ⟨voltageLevel, r.lowBusbar, busbarCount, r.lowSection, sectionCount, r.base, r.switchBase,
    r.switchKinds, r.connectExisting⟩

/-- The indices from `low` on that are below `high`. -/
def indicesBetween (low high : Int32) : List Int32 :=
  (List.range (high.toInt - low.toInt).toNat).map fun i => low + .ofNat i

namespace Grid

def busbars (g : Grid) : List Int32 :=
  indicesBetween g.lowBusbar (g.lowBusbar + g.busbarCount)

def sections (g : Grid) : List Int32 :=
  indicesBetween g.lowSection (g.lowSection + g.sectionCount)

/-- The positions to create, section after section. -/
def positions (g : Grid) : List BusbarPosition :=
  g.sections.flatMap fun s => g.busbars.map fun b => ⟨b, s⟩

/-- The position is one of those to create. -/
def covers (g : Grid) (p : BusbarPosition) : Bool :=
  g.lowBusbar ≤ p.busbarIndex && p.busbarIndex < g.lowBusbar + g.busbarCount &&
    g.lowSection ≤ p.sectionIndex && p.sectionIndex < g.lowSection + g.sectionCount

def checkCounts (g : Grid) : Except Fault Unit := do
  let check (quantity : Quantity) (count least : Int32) : Except Fault Unit :=
    if count < least then throw (.quantityTooLow quantity count least) else return
  check .lowBusbarIndex g.lowBusbar 0
  check .busbarCount g.busbarCount 1
  check .lowSectionIndex g.lowSection 0
  check .sectionCount g.sectionCount 1

/-- One kind for each pair of consecutive sections, a disconnector or a breaker. -/
def checkSwitchKinds (g : Grid) : Except Fault Unit := do
  let expected := (g.sectionCount - 1).toNatClampNeg
  if g.switchKinds.length ≠ expected then
    throw (.switchKindCount g.switchKinds.length expected)
  match g.switchKinds.find? (· = .loadBreakSwitch) with
  | some kind => throw (.switchKindRefused kind)
  | none => return

def createBuses (naming : NamingStrategy) (voltageLevel base : String) :
    List BusbarPosition → Run (List (BusbarPosition × String))
  | [] => return []
  | p :: rest => do
    let draft : BusDraft :=
      { voltageLevel, id := naming.busbar base p.busbarIndex p.sectionIndex }
    let id ← Run.edit draft.create
    Run.emit (.busCreated id)
    return (p, id) :: (← createBuses naming voltageLevel base rest)

/-- Links the buses at given positions to those of the section before. -/
def linkBuses (naming : NamingStrategy) (voltageLevel base : String)
    (buses : List (BusbarPosition × String)) : List BusbarPosition → Run Unit
  | [] => return
  | p :: rest => do
    let before := p.sectionIndex - 1
    match buses.lookup { p with sectionIndex := before }, buses.lookup p with
    | some bus1, some bus2 =>
      Run.createBusSwitch voltageLevel
        (naming.switch (naming.sectioning base p.busbarIndex before p.sectionIndex)) bus1 bus2
    | _, _ => pure ()
    linkBuses naming voltageLevel base buses rest

/-- Creates busbar sections on nodes from `node` on. -/
def createSections (naming : NamingStrategy) (voltageLevel base : String) (node : Node) :
    List BusbarPosition → Run (List (BusbarPosition × Node))
  | [] => return []
  | p :: rest => do
    let draft : BusbarSectionDraft :=
      { voltageLevel, id := naming.busbar base p.busbarIndex p.sectionIndex, node,
        position := some p }
    Run.emit (.busbarSectionCreated (← Run.edit draft.create) p)
    return (p, node) :: (← createSections naming voltageLevel base (node + 1) rest)

/-- Links the sections at given positions to those of the section after. -/
def linkSections (naming : NamingStrategy) (voltageLevel base : String)
    (created : List (BusbarPosition × Node)) : List (BusbarPosition × SwitchKind) → Run Unit
  | [] => return
  | (p, kind) :: rest => do
    let after := p.sectionIndex + 1
    match created.lookup p, created.lookup { p with sectionIndex := after } with
    | some node1, some node2 =>
      Run.createSectionLink naming voltageLevel
        (naming.sectioning base p.busbarIndex p.sectionIndex after) kind node1 node2 false
    | _, _ => pure ()
    linkSections naming voltageLevel base created rest

/-- The switch leads to equipment, or to a busbar section of the section index. -/
def leadsOn (n : Network) (sectionIndex : Int32) (r : RailSwitch) : Bool :=
  r.attachments.any fun a =>
    !n.busbarSections.contains a.connectable || n.sectionIndex? a.connectable == some sectionIndex

/-- The switches to copy in a section, by the node at their far end. -/
def switchesToCopy (n : Network) (w : Wiring) (sectionIndex : Int32) (existing : List Rail) :
    ExtTreeMap Node RailSwitch :=
  existing.foldl
    (fun toCopy rail =>
      ((w.railSwitches rail).toList.filter (leadsOn n sectionIndex ·.2)).foldl
        (fun toCopy (node, r) => toCopy.insert node r) toCopy)
    ∅

def copyToRails (naming : NamingStrategy) (voltageLevel base : String)
    (toCopy : List (Node × RailSwitch)) : List Node → Run Unit
  | [] => return
  | node :: rest => do
    Run.copyRailSwitches naming voltageLevel base node toCopy
    copyToRails naming voltageLevel base toCopy rest

/-- Connects what the existing busbar sections of each section connect to the
new ones of that section. -/
def connectSections (naming : NamingStrategy) (voltageLevel base : String)
    (existing : List (BusbarSection × BusbarPosition)) (created : List (BusbarPosition × Node)) :
    List Int32 → Run Unit
  | [] => return
  | s :: rest => do
    let n ← Run.network
    let w ← Run.lookUp (n.wiring voltageLevel)
    let rails := (existing.filter (·.2.sectionIndex == s)).map (·.1.rail)
    let nodes := (created.filter (·.1.sectionIndex == s)).map (·.2)
    copyToRails naming voltageLevel base (switchesToCopy n w s rails).toList nodes
    connectSections naming voltageLevel base existing created rest

def stepsOnBuses (g : Grid) (naming : NamingStrategy) (base switchBase : String) : Run Unit := do
  let buses ← createBuses naming g.voltageLevel base g.positions
  linkBuses naming g.voltageLevel switchBase buses
    (g.positions.filter (·.sectionIndex != g.lowSection))

def stepsOnNodes (g : Grid) (naming : NamingStrategy) (base switchBase : String) : Run Unit := do
  let existing := (← Run.network).placedSections g.voltageLevel
  if existing.any (g.covers ·.2) then Run.refuse (.positionTaken g.voltageLevel)
  match g.checkSwitchKinds with
  | .error f => Run.refuse f
  | .ok () =>
    let node ← Run.nextNode g.voltageLevel
    let created ← createSections naming g.voltageLevel base node g.positions
    linkSections naming g.voltageLevel switchBase created <|
      (g.sections.zip g.switchKinds).flatMap fun (s, kind) => g.busbars.map fun b => (⟨b, s⟩, kind)
    if g.connectExisting then
      connectSections naming g.voltageLevel switchBase existing created g.sections

def steps (g : Grid) (naming : NamingStrategy) : Run Unit := do
  match g.checkCounts with
  | .error f => Run.refuse f
  | .ok () =>
    let some v := (← Run.network).voltageLevels[g.voltageLevel]?
      | Run.refuse (.voltageLevelNotFound g.voltageLevel)
    let base := g.base.getD g.voltageLevel
    let switchBase := g.switchBase.getD g.voltageLevel
    match v.topology with
    | .busBreaker _ => g.stepsOnBuses naming base switchBase
    | .nodeBreaker _ => g.stepsOnNodes naming base switchBase
    Run.emit (.gridCreated g.voltageLevel g.busbarCount g.sectionCount)

def impact (g : Grid) (n : Network) : Impact :=
  .ofBool <|
    g.checkCounts.isOk &&
      match n.voltageLevels[g.voltageLevel]? with
      | none => false
      | some v =>
        match v.topology with
        | .nodeBreaker _ => g.checkSwitchKinds.isOk
        | .busBreaker _ => true

end Grid

end Switchyard
