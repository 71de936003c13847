import Switchyard.FeederBays

namespace Switchyard

variable [Numbering]

/-- Couples two buses by a closed switch, or two busbar sections by a closed
breaker with a closed disconnector to each of them. Open disconnectors lead to
the busbar sections parallel to them. -/
structure Coupling where
  id1 : String
  id2 : String
  base : Option String
  deriving DecidableEq

structure CouplingRequest where
  id1 : Option String := none
  id2 : Option String := none
  base : Option String := none

def CouplingRequest.build (r : CouplingRequest) : Except Fault Coupling := do
  let id1 ← required "bus_or_busbar_section_id1" r.id1
  let id2 ← required "bus_or_busbar_section_id2" r.id2
  return ⟨id1, id2, r.base⟩

/-- Which busbar is left out when both coupled sections are parallel. -/
inductive OuterBusbar where
  | first
  | last
  deriving DecidableEq

def OuterBusbar.other : OuterBusbar → OuterBusbar
  | .first => .last
  | .last => .first

/-- The index of the outer busbar of some sections. -/
def OuterBusbar.index? (o : OuterBusbar) (sections : List (Rail × Int32)) : Option Int32 :=
  match o with
  | .first => (sections.map (·.2)).min?
  | .last => (sections.map (·.2)).max?

namespace Coupling

/-- The busbar sections of a section index, with their busbars. -/
def sectionsOf (n : Network) (voltageLevel : String) (sectionIndex : Int32) : List (Rail × Int32) :=
  (n.parallelSections voltageLevel sectionIndex).filterMap fun b =>
    b.position.map fun p => (b.rail, p.busbarIndex)

/-- The busbar that the first side leaves out: the last one if the first section
is on the first busbar or the second section on the last one. -/
def leftOutFirst (sections : List (Rail × Int32)) (p1 p2 : BusbarPosition) : OuterBusbar :=
  if OuterBusbar.first.index? sections = some p1.busbarIndex ∨
      OuterBusbar.last.index? sections = some p2.busbarIndex then .last
  else .first

/-- Connects a node of the breaker to a busbar section and to the sections
parallel to it, and counts the open disconnectors. -/
def connectSide (naming : NamingStrategy) (voltageLevel base : String) (node : Node) (rail : Rail)
    (position : Option BusbarPosition) (leftOut : Option OuterBusbar) : Run Nat := do
  match position with
  | none =>
    Run.createDisconnectors naming voltageLevel node base rail.id [rail]
    Run.emit (.busbarSectionUnplaced rail.id)
    return 0
  | some p =>
    let sections := sectionsOf (← Run.network) voltageLevel p.sectionIndex
    let kept :=
      match leftOut with
      | none => sections
      | some outer => sections.filter fun s => some s.2 ≠ outer.index? sections
    Run.createDisconnectors naming voltageLevel node base rail.id (kept.map (·.1))
    return kept.length - 1

def coupleSections (naming : NamingStrategy) (given : Option String) (voltageLevel : String)
    (rail1 rail2 : Rail) : Run Unit := do
  let base := given.getD (naming.couplingBase voltageLevel rail1.id rail2.id)
  let node1 ← Run.nextNode voltageLevel
  let node2 := node1 + 1
  Run.createSwitch voltageLevel .breaker (naming.breaker base) node1 node2 false false
  let n ← Run.network
  let position (rail : Rail) : Option BusbarPosition :=
    n.busbarSections[rail.id]?.bind (·.position)
  let leftOut1 :=
    match position rail1, position rail2 with
    | some p1, some p2 =>
      if p1.sectionIndex = p2.sectionIndex then
        some (leftOutFirst (sectionsOf n voltageLevel p1.sectionIndex) p1 p2)
      else none
    | _, _ => none
  let count1 ←
    connectSide naming voltageLevel base node1 rail1 (position rail1) leftOut1
  let count2 ←
    connectSide naming voltageLevel base node2 rail2 (position rail2) (leftOut1.map (·.other))
  if 0 < count1 + count2 then
    Run.emit (.openDisconnectorsCreated rail1.id (count1 + count2))

def steps (c : Coupling) (naming : NamingStrategy) : Run Unit := do
  let junction1 ← Run.junction c.id1
  let junction2 ← Run.junction c.id2
  if c.id1 = c.id2 then Run.refuse (.coupledWithItself c.id1)
  if junction1.voltageLevel ≠ junction2.voltageLevel then
    Run.refuse (.differentVoltageLevels c.id1 c.id2)
  let vl := junction1.voltageLevel
  match junction1, junction2 with
  | .bus .., .bus .. =>
    Run.createBusSwitch vl (naming.switch (c.base.getD vl)) c.id1 c.id2
  | .busbarSection _ _ node1, .busbarSection _ _ node2 =>
    coupleSections naming c.base vl ⟨c.id1, node1⟩ ⟨c.id2, node2⟩
  | _, _ => throw (.mixedCoupling c.id1 c.id2)
  Run.emit (.couplingCreated vl c.id1 c.id2)

def impact (c : Coupling) (n : Network) : Impact :=
  .ofBool <|
    match n.junction c.id1, n.junction c.id2 with
    | .ok j1, .ok j2 => j1.id ≠ j2.id && j1.voltageLevel = j2.voltageLevel
    | _, _ => false

end Coupling

end Switchyard
