import Std.Data.ExtTreeMap
import Std.Data.ExtTreeSet
import Switchyard.Equipment
import Switchyard.Slots

namespace Switchyard

open Std

/-- What joins two nodes. -/
inductive Link where
  | switch (id : String)
  | connection
  deriving DecidableEq

/-- A link, in the direction it was laid. -/
structure Edge where
  node1 : Node
  node2 : Node
  link : Link
  deriving DecidableEq

def Edge.touches (e : Edge) (node : Node) : Bool :=
  e.node1 == node || e.node2 == node

/-- The end of the edge seen from `node`. -/
def Edge.farEnd (e : Edge) (node : Node) : Node :=
  if e.node1 = node then e.node2 else e.node1

structure Switch where
  id : String
  name : Option String
  voltageLevel : String
  kind : SwitchKind
  node1 : Node
  node2 : Node
  isOpen : Bool
  retained : Bool
  fictitious : Bool
  deriving DecidableEq

def Switch.edge (s : Switch) : Edge :=
  ⟨s.node1, s.node2, .switch s.id⟩

/-- The end of the switch seen from `node`. -/
def Switch.farEnd (s : Switch) (node : Node) : Node :=
  s.edge.farEnd node

/-- A side of a connectable. -/
structure Attachment where
  connectable : String
  side : Side
  deriving DecidableEq

/-- What joins two points of the graph of a voltage level. -/
structure Arc where
  source : Nat
  target : Nat
  link : Link
  deriving DecidableEq

def Arc.touches (a : Arc) (point : Nat) : Bool :=
  a.source == point || a.target == point

variable [Numbering]

/-- The inside of a voltage level at node level: nodes joined by switches and
internal connections, some of them holding a terminal. The graph numbers its
points and its arcs on its own, so each node is kept with its point and each
switch with its arc. -/
structure Wiring where
  /-- The node that each point stands for. -/
  points : Slots Node := .empty
  arcs : Slots Arc := .empty
  /-- The numbers of the arcs, last added first. -/
  recent : List Nat := []
  /-- The point of each node. -/
  places : ExtTreeMap Node Nat := ∅
  switches : ExtTreeMap String Switch := ∅
  /-- The number of the arc of each switch. -/
  switchArcs : ExtTreeMap String Nat := ∅
  terminals : ExtTreeMap Node Attachment := ∅

namespace Wiring

def nodes (w : Wiring) : ExtTreeSet Node :=
  .ofList w.places.keys

def nextNode (w : Wiring) : Node :=
  match w.nodes.toList.getLast? with
  | some n => n + 1
  | none => 0

/-- The node that a point stands for. -/
def nodeAt (w : Wiring) (point : Nat) : Node :=
  (w.points.entries[point]?).getD 0

/-- An arc, by the nodes at its ends. -/
def edgeOf (w : Wiring) (a : Arc) : Edge :=
  ⟨w.nodeAt a.source, w.nodeAt a.target, a.link⟩

/-- The edges under their numbers. -/
def edges (w : Wiring) : ExtTreeMap Nat Edge :=
  w.arcs.entries.map fun _ a => w.edgeOf a

/-- The edges by number. -/
def edgeList (w : Wiring) : List Edge :=
  w.edges.values

/-- The edges at a node, by number. -/
def edgesAt (w : Wiring) (node : Node) : List Edge :=
  w.edgeList.filter (·.touches node)

/-- The ends of the internal connections, as laid, by edge number. -/
def connections (w : Wiring) : List (Node × Node) :=
  (w.edgeList.filter (·.link = .connection)).map fun e => (e.node1, e.node2)

def switchOf (w : Wiring) (e : Edge) : Option Switch :=
  match e.link with
  | .switch id => w.switches[id]?
  | .connection => none

/-- Gives a node a point, unless it has one. -/
def ensureNode (w : Wiring) (node : Node) : Wiring :=
  if w.places.contains node then w
  else
    { w with
      points := w.points.add node
      places := w.places.insert node w.points.next }

def addArc (w : Wiring) (a : Arc) : Wiring :=
  { w with arcs := w.arcs.add a, recent := w.arcs.next :: w.recent }

def addEdge (w : Wiring) (e : Edge) : Wiring :=
  let w := (w.ensureNode e.node1).ensureNode e.node2
  match w.places[e.node1]?, w.places[e.node2]? with
  | some source, some target => w.addArc ⟨source, target, e.link⟩
  | _, _ => w

def dropArc (w : Wiring) (number : Nat) : Wiring :=
  { w with arcs := w.arcs.drop number, recent := w.recent.erase number }

/-- Drops a node that holds no terminal and has no edge. -/
def releaseNode (w : Wiring) (node : Node) : Wiring :=
  match w.places[node]? with
  | none => w
  | some point =>
    if w.terminals.contains node || w.arcs.entries.values.any (·.touches point) then w
    else { w with points := w.points.drop point, places := w.places.erase node }

def addSwitch (w : Wiring) (s : Switch) : Wiring :=
  { w.addEdge s.edge with
    switchArcs := w.switchArcs.insert s.id w.arcs.next
    switches := w.switches.insert s.id s }

/-- Removes a switch, and its ends if nothing else is there. -/
def removeSwitch? (w : Wiring) (id : String) : Option Wiring := do
  let number ← w.switchArcs[id]?
  let s ← w.switches[id]?
  let w :=
    { w.dropArc number with
      switchArcs := w.switchArcs.erase id
      switches := w.switches.erase id }
  return (w.releaseNode s.node1).releaseNode s.node2

def setSwitchOpen (w : Wiring) (id : String) (isOpen : Bool) : Wiring :=
  { w with switches := w.switches.modify id ({ · with isOpen }) }

def addConnection (w : Wiring) (node1 node2 : Node) : Wiring :=
  w.addEdge ⟨node1, node2, .connection⟩

/-- The numbers of the internal connections between two nodes, last added
first and those laid from `node1` before those laid to it, unless the graph
lists its arcs in another order. Twice the same node stands for all the internal
connections at that node. -/
def connectionsBetween (w : Wiring) (node1 node2 : Node) : List Nat :=
  match w.places[node1]?, w.places[node2]? with
  | some a, some b =>
    let laid (test : Arc → Bool) : List Nat :=
      w.recent.filter fun number =>
        match w.arcs.entries[number]? with
        | some arc => arc.link = .connection && arc.touches b && test arc
        | none => false
    w.arcs.arrange (laid (·.source == a) ++ laid (·.target == a))
  | _, _ => []

/-- Removes the internal connections between two nodes, and those two nodes if
nothing else is there. -/
def removeConnections (w : Wiring) (node1 node2 : Node) : Wiring :=
  if w.places.contains node1 && w.places.contains node2 then
    let w := (w.connectionsBetween node1 node2).foldl dropArc w
    (w.releaseNode node1).releaseNode node2
  else w

/-- Attaches a side to a node, or tells what is already there. -/
def attach (w : Wiring) (node : Node) (a : Attachment) : Except Attachment Wiring :=
  match w.terminals[node]? with
  | some other => .error other
  | none => .ok { w.ensureNode node with terminals := w.terminals.insert node a }

def detach (w : Wiring) (node : Node) : Wiring :=
  { w with terminals := w.terminals.erase node }.releaseNode node

end Wiring

end Switchyard
