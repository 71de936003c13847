import Switchyard.Network

namespace Switchyard

open Std

variable [Numbering]

/-- Inserts a value in front of the first one that is not below it. -/
def insertSorted (x : FeederOrder) : List FeederOrder → List FeederOrder
  | [] => [x]
  | y :: ys => if x ≤ y then x :: y :: ys else y :: insertSorted x ys

def sortOrders (xs : List FeederOrder) : List FeederOrder :=
  xs.foldr insertSorted []

def FeederOrder.highest : FeederOrder := Int32.maxValue

def FeederOrder.lowest : FeederOrder := Int32.minValue

/-- The next order up, if there is one. -/
def FeederOrder.above (o : FeederOrder) : FeederOrder :=
  if o = highest then o else o + 1

/-- The next order down, if there is one. -/
def FeederOrder.below (o : FeederOrder) : FeederOrder :=
  if o = lowest then o else o - 1

/-- The orders from `low` to `high`, both included. -/
structure OrderRange where
  low : FeederOrder
  high : FeederOrder
  deriving DecidableEq

def OrderRange.contains (r : OrderRange) (o : FeederOrder) : Bool :=
  r.low ≤ o && o ≤ r.high

/-- The range between two bounds, if it holds any order. -/
def orderRange? (low high : FeederOrder) : Option OrderRange :=
  if low ≤ high then some ⟨low, high⟩ else none

/-- The highest value a busbar or section index takes. A busbar section without
a position comes last. -/
def lastIndex : Int32 := Int32.maxValue

namespace Network

/-- The orders of the feeders attached to a voltage level. -/
def feederOrders (n : Network) (voltageLevel : String) : ExtTreeSet FeederOrder :=
  .ofList ((n.connectablesIn voltageLevel).flatMap (·.ordersIn voltageLevel))

/-- The feeders that each connectable has in a voltage level. -/
def feedersByConnectable (n : Network) (voltageLevel : String) :
    ExtTreeMap String (List Feeder) :=
  .ofList <| ((n.connectablesIn voltageLevel).map fun c => (c.id, c.feedersIn voltageLevel)).filter
    (!·.2.isEmpty)

/-- The section index of a busbar section that has a position. -/
def sectionIndex? (n : Network) (busbarSection : String) : Option Int32 :=
  n.busbarSections[busbarSection]?.bind (·.position.map (·.sectionIndex))

/-- The connectables met from a busbar section of a section index, on paths that
do not pass through busbar sections of other section indices. -/
def metFrom (n : Network) (w : Wiring) (b : BusbarSection) (sectionIndex : Int32) :
    ExtTreeSet String :=
  (w.traverse b.node
    (fun met h =>
      match w.terminals[h.target]? with
      | none => (.onward, met)
      | some a =>
        match n.sectionIndex? a.connectable with
        | some other =>
          if other = sectionIndex then (.onward, met.insert a.connectable) else (.leave, met)
        | none => (.onward, met.insert a.connectable))
    (ExtTreeSet.ofList [b.id])).2

/-- The positioned busbar sections of a voltage level, with their positions. -/
def placedSections (n : Network) (voltageLevel : String) :
    List (BusbarSection × BusbarPosition) :=
  (n.busbarSectionsIn voltageLevel).filterMap fun b => b.position.map (b, ·)

/-- The connectables of each slice of a voltage level. -/
def sliceMembers (n : Network) (voltageLevel : String) : ExtTreeMap Int32 (ExtTreeSet String) :=
  match n.wiring voltageLevel with
  | .error _ => ∅
  | .ok w =>
    (n.placedSections voltageLevel).foldl
      (fun slices (b, p) =>
        slices.insert p.sectionIndex
          ((slices.getD p.sectionIndex ∅).union (n.metFrom w b p.sectionIndex)))
      ∅

/-- The feeder orders of each slice of a voltage level: those of the connectables
met from the busbar sections with one section index. -/
def sliceOrders (n : Network) (voltageLevel : String) : ExtTreeMap Int32 (List FeederOrder) :=
  (n.sliceMembers voltageLevel).map fun _ members =>
    sortOrders <| (members.toList.filterMap n.connectable?).flatMap (·.ordersIn voltageLevel)

/-- The highest order of the closest slice below a section index that has any. -/
def highestBefore (slices : ExtTreeMap Int32 (List FeederOrder)) (sectionIndex : Int32) :
    Option FeederOrder :=
  (slices.toList.filter (·.1 < sectionIndex)).reverse.findSome? (·.2.max?)

/-- The lowest order of the closest slice above a section index that has any. -/
def lowestAfter (slices : ExtTreeMap Int32 (List FeederOrder)) (sectionIndex : Int32) :
    Option FeederOrder :=
  (slices.toList.filter (sectionIndex < ·.1)).findSome? (·.2.min?)

def lowFrom (bound : Option FeederOrder) : FeederOrder :=
  (bound.map (·.above)).getD 0

def highFrom (bound : Option FeederOrder) : FeederOrder :=
  (bound.map (·.below)).getD .highest

def busbarSection (n : Network) (id : String) : Except Fault BusbarSection :=
  match n.busbarSections[id]? with
  | some b => .ok b
  | none => .error (.busbarSectionNotFound id)

/-- A busbar section with its position. -/
def placedSection (n : Network) (id : String) : Except Fault (BusbarSection × BusbarPosition) := do
  let b ← n.busbarSection id
  match b.position with
  | some p => return (b, p)
  | none => throw (.positionMissing id)

/-- The orders that the slices around a busbar section leave to its own slice. -/
def positionRange (n : Network) (id : String) : Except Fault (Option OrderRange) := do
  let b ← n.busbarSection id
  match b.position with
  | none => return some ⟨0, .highest⟩
  | some p =>
    let slices := n.sliceOrders b.voltageLevel
    return orderRange? (lowFrom (highestBefore slices p.sectionIndex))
      (highFrom (lowestAfter slices p.sectionIndex))

/-- The orders free below those of the slice of a busbar section. -/
def ordersFreeBefore (n : Network) (id : String) : Except Fault (Option OrderRange) := do
  let (b, p) ← n.placedSection id
  let slices := n.sliceOrders b.voltageLevel
  let own := slices[p.sectionIndex]?.bind (·.min?)
  return orderRange? (lowFrom (highestBefore slices p.sectionIndex))
    (highFrom (own.or (lowestAfter slices p.sectionIndex)))

/-- The orders free above those of the slice of a busbar section. -/
def ordersFreeAfter (n : Network) (id : String) : Except Fault (Option OrderRange) := do
  let (b, p) ← n.placedSection id
  let slices := n.sliceOrders b.voltageLevel
  let own := slices[p.sectionIndex]?.bind (·.max?)
  return orderRange? (lowFrom (own.or (highestBefore slices p.sectionIndex)))
    (highFrom (lowestAfter slices p.sectionIndex))

/-- Sorts by section, then by busbar. -/
def gridKey (b : BusbarSection) : Int32 × Int32 :=
  match b.position with
  | some p => (p.sectionIndex, p.busbarIndex)
  | none => (lastIndex, lastIndex)

/-- The first busbar section of a voltage level by position, or by id if none
has a position. -/
def firstBusbarSection (n : Network) (voltageLevel : String) : Except Fault BusbarSection :=
  let precedes (a b : Int32 × Int32) : Bool := a.1 < b.1 || a.1 == b.1 && a.2 < b.2
  match n.busbarSectionsIn voltageLevel with
  | [] => .error (.noBusbarSectionIn voltageLevel)
  | b :: rest =>
    .ok (rest.foldl (fun best c => if precedes (gridKey c) (gridKey best) then c else best) b)

/-- The busbar sections of a voltage level with a section index. -/
def parallelSections (n : Network) (voltageLevel : String) (sectionIndex : Int32) :
    List BusbarSection :=
  (n.busbarSectionsIn voltageLevel).filter (·.position.any (·.sectionIndex == sectionIndex))

end Network

end Switchyard
