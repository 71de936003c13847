import Switchyard.Network

namespace Switchyard

variable [Numbering]

/-- A change of a network that may be refused half way. -/
abbrev Edit := EStateM Fault Network

namespace Edit

/-- Looks something up in the network. -/
def lookUp {α : Type} (find : Network → Except Fault α) : Edit α := do
  match find (← get) with
  | .ok a => return a
  | .error f => throw f

def wiring (voltageLevel : String) : Edit Wiring :=
  lookUp (·.wiring voltageLevel)

def busLayout (voltageLevel : String) : Edit BusLayout :=
  lookUp (·.busLayout voltageLevel)

def setWiring (voltageLevel : String) (w : Wiring) : Edit Unit :=
  modify (·.setTopology voltageLevel (.nodeBreaker w))

def setBusLayout (voltageLevel : String) (l : BusLayout) : Edit Unit :=
  modify (·.setTopology voltageLevel (.busBreaker l))

/-- Takes an id, or a free one close to it if `unique` is set. -/
def claimId (id : String) (unique : Bool) (kind : ObjectKind) (voltageLevel : Option String) :
    Edit String := do
  let n ← get
  match unique, n.index[id]? with
  | false, some taken => throw (.idTaken n.id taken.kind id)
  | _, _ =>
    let id := if unique then n.uniqueId id else id
    set { n with index := n.index.insert id ⟨kind, voltageLevel⟩ }
    return id

def forgetId (id : String) : Edit Unit :=
  modify fun n => { n with index := n.index.erase id }

/-- Checks that equipment can be attached there. -/
def checkTerminal (t : Terminal) : Edit Unit := do
  match (← get).voltageLevels[t.voltageLevel]? with
  | none => throw (.voltageLevelNotFound t.voltageLevel)
  | some v =>
    match t.connection, v.topology with
    | .node node, .nodeBreaker w =>
      match w.terminals[node]? with
      | some other => throw (.nodeTaken node t.voltageLevel other.connectable)
      | none => return
    | .bus bus, .busBreaker l =>
      if !l.buses.contains bus then throw (.busNotFound bus t.voltageLevel)
    | .node _, .busBreaker _ => throw (.notNodeBreaker t.voltageLevel)
    | .bus _, .nodeBreaker _ => throw (.notBusBreaker t.voltageLevel)

/-- Checks the terminals in turn, and that no two of them are at one node. -/
def checkTerminals (earlier : List Terminal) : List Terminal → Edit Unit
  | [] => return
  | t :: rest => do
    checkTerminal t
    match t.node? with
    | some node => if t ∈ earlier then throw (.nodeShared node t.voltageLevel)
    | none => pure ()
    checkTerminals (t :: earlier) rest

/-- Attaches the sides of a connectable that are at nodes. -/
def attachTerminals (connectable : String) : List (Side × Terminal) → Edit Unit
  | [] => return
  | (side, t) :: rest => do
    match t.node? with
    | none => pure ()
    | some node =>
      match (← wiring t.voltageLevel).attach node ⟨connectable, side⟩ with
      | .ok w => setWiring t.voltageLevel w
      | .error other => throw (.nodeOccupied node other.connectable)
    attachTerminals connectable rest

def detachTerminals : List Terminal → Edit Unit
  | [] => return
  | t :: rest => do
    match t.node? with
    | none => pure ()
    | some node => setWiring t.voltageLevel ((← wiring t.voltageLevel).detach node)
    detachTerminals rest

end Edit

end Switchyard
