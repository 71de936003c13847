import Switchyard.FeederBays

namespace Switchyard

open Std

variable [Numbering]

/-- How a new section is linked on one side. -/
structure SectionLink where
  kind : SwitchKind := .disconnector
  fictitious : Bool := false
  deriving DecidableEq

/-- Inserts a busbar section next to a given one, on its busbar or on all the
busbars parallel to it. -/
structure SectionInsertion where
  busbarSection : String
  after : Bool
  allBusbars : Bool
  left : SectionLink
  right : SectionLink
  deriving DecidableEq

structure SectionInsertionRequest where
  busbarSection : Option String := none
  after : Bool := true
  allBusbars : Bool := false
  left : SectionLink := {}
  right : SectionLink := {}

def SectionInsertionRequest.build (r : SectionInsertionRequest) :
    Except Fault SectionInsertion := do
  return ⟨← required "busbar_section_id" r.busbarSection, r.after, r.allBusbars, r.left, r.right⟩

/-- The next section on a busbar, and the switches on the path to it. -/
structure Neighbour where
  node : Node
  switches : List String
  deriving DecidableEq

/-- A busbar section that a new one is put next to. -/
structure Extension where
  rail : Rail
  neighbour : Option Neighbour
  deriving DecidableEq

/-- How a walk from a busbar section came to each node without a terminal. -/
structure Trace where
  parents : ExtTreeMap Node Hop := ∅
  found : Option Hop := none

/-- The switches back from a node to the start of a walk. Each step back takes
one entry away, so the way ends. -/
def Trace.switchesTo (parents : ExtTreeMap Node Hop) (node : Node) : List String :=
  match _h : parents[node]? with
  | none => []
  | some hop =>
    let rest := switchesTo (parents.erase node) hop.source
    match hop.edge.link with
    | .switch id => id :: rest
    | .connection => rest
termination_by parents.size
decreasing_by
  have hp : 0 < parents.size := by
    rcases Nat.eq_zero_or_pos parents.size with hz | hp
    · rw [ExtTreeMap.eq_empty_iff_size_eq_zero.mpr hz] at _h
      simp at _h
    · exact hp
  have hc : parents.contains node = true := by
    rw [ExtTreeMap.contains_eq_isSome_getElem?, _h]
    rfl
  rw [ExtTreeMap.size_erase, hc]
  simp only [↓reduceIte]
  omega

/-- Looks from a busbar section for another one at a position. Paths end at
nodes with a terminal. -/
def Network.neighbour? (n : Network) (w : Wiring) (start : Rail) (position : BusbarPosition) :
    Option Neighbour :=
  let trace := (w.traverse start.node
    (fun (t : Trace) h =>
      match w.terminals[h.target]? with
      | none =>
        (.onward, { t with parents := t.parents.insertIfNew h.target h })
      | some a =>
        if a.connectable = start.id then (.leave, t)
        else if n.busbarSections[a.connectable]?.bind (·.position) = some position then
          (.stop, { t with found := some h })
        else (.leave, t))
    {}).2
  trace.found.map fun h =>
    let last :=
      match h.edge.link with
      | .switch id => [id]
      | .connection => []
    ⟨h.target, last ++ Trace.switchesTo trace.parents h.source⟩

namespace SectionInsertion

/-- The section index of the neighbours: the closest one on the side of the insertion. -/
def nextSection (c : SectionInsertion) (sections : List Int32) (reference : Int32) : Option Int32 :=
  if c.after then (sections.filter (reference < ·)).min?
  else (sections.filter (· < reference)).max?

/-- Finds the neighbour of each busbar section to extend. -/
def findNeighbours (voltageLevel : String) (next : Option Int32) :
    List (Rail × Int32) → Run (List Extension)
  | [] => return []
  | (rail, busbarIndex) :: rest => do
    match next with
    | none => return ⟨rail, none⟩ :: (← findNeighbours voltageLevel next rest)
    | some sectionIndex =>
      let n ← Run.network
      match n.neighbour? (← Run.lookUp (n.wiring voltageLevel)) rail ⟨busbarIndex, sectionIndex⟩ with
      | none => Run.refuse (.noNeighbour rail.id)
      | some found => return ⟨rail, some found⟩ :: (← findNeighbours voltageLevel next rest)

def shift : List (String × BusbarPosition) → Run Unit
  | [] => return
  | (id, p) :: rest => do
    Run.edit (Edit.setBusbarPosition id (some { p with sectionIndex := p.sectionIndex + 1 }))
    shift rest

/-- Raises by one the section indices from `first` on. -/
def shiftSections (voltageLevel : String) (first : Int32) : Run Unit := do
  let placed := (← Run.network).placedSections voltageLevel
  shift ((placed.filter (first ≤ ·.2.sectionIndex)).map fun (b, p) => (b.id, p))
  Run.emit (.sectionsShifted voltageLevel first)

def removeSwitches : List String → Run Unit
  | [] => return
  | id :: rest => do
    Run.edit (Edit.removeSwitch id)
    Run.emit (.switchRemoved id)
    removeSwitches rest

/-- Creates the section next to one busbar section, with its links from left to
right in place of those to the neighbour. -/
def insertSection (c : SectionInsertion) (naming : NamingStrategy) (voltageLevel : String)
    (e : Extension) : Run Unit := do
  removeSwitches ((e.neighbour.map (·.switches)).getD [])
  let some p := (← Run.network).busbarSections[e.rail.id]?.bind (·.position)
    | throw (.positionLost e.rail.id)
  let position : BusbarPosition :=
    { p with sectionIndex := if c.after then p.sectionIndex + 1 else p.sectionIndex - 1 }
  let node ← Run.nextNode voltageLevel
  let draft : BusbarSectionDraft :=
    { voltageLevel, id := naming.busbarAt voltageLevel node, node, name := some (toString node),
      position := some position, unique := true }
  Run.emit (.busbarSectionCreated (← Run.edit draft.create) position)
  let link (l : SectionLink) (node1 node2 : Node) : Run Unit :=
    Run.createSectionLink naming voltageLevel voltageLevel l.kind node1 node2 l.fictitious
  if c.after then link c.left e.rail.node node else link c.right node e.rail.node
  match e.neighbour with
  | none => pure ()
  | some other => if c.after then link c.right node other.node else link c.left other.node node

def insertSections (c : SectionInsertion) (naming : NamingStrategy) (voltageLevel : String) :
    List Extension → Run Unit
  | [] => return
  | e :: rest => do
    insertSection c naming voltageLevel e
    insertSections c naming voltageLevel rest

/-- Where section indices are raised from to make room for the new one. -/
def firstShifted (c : SectionInsertion) (next : Option Int32) (reference : Int32) : Option Int32 :=
  match next with
  | some s =>
    if (reference - s).abs = 1 then some (if c.after then reference + 1 else reference)
    else none
  | none => if !c.after && reference == 1 then some reference else none

def steps (c : SectionInsertion) (naming : NamingStrategy) : Run Unit := do
  if c.left.kind = .loadBreakSwitch then Run.refuse (.switchKindRefused c.left.kind)
  if c.right.kind = .loadBreakSwitch then Run.refuse (.switchKindRefused c.right.kind)
  let b ← Run.busbarSection c.busbarSection
  let n ← Run.network
  let vl := b.voltageLevel
  let (some reference, true) := (b.position, (n.busbarSectionsIn vl).all (·.position.isSome))
    | Run.refuse (.positionsMissing vl)
  let placed := n.placedSections vl
  let next := c.nextSection (placed.map (·.2.sectionIndex)) reference.sectionIndex
  let extended :=
    if c.allBusbars then
      (placed.filter (·.2.sectionIndex == reference.sectionIndex)).map fun (b, p) =>
        (b.rail, p.busbarIndex)
    else [(b.rail, reference.busbarIndex)]
  let extensions ← findNeighbours vl next extended
  match c.firstShifted next reference.sectionIndex with
  | some first => shiftSections vl first
  | none => pure ()
  insertSections c naming vl extensions

def impact (c : SectionInsertion) (n : Network) : Impact :=
  .ofBool <|
    match n.junction c.busbarSection with
    | .ok (.busbarSection ..) => true
    | _ => false

end SectionInsertion

end Switchyard
