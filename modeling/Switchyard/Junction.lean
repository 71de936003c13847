import Switchyard.Run

namespace Switchyard

variable [Numbering]

/-- A busbar section and its node. -/
structure Rail where
  id : String
  node : Node
  deriving DecidableEq

def BusbarSection.rail (b : BusbarSection) : Rail :=
  ⟨b.id, b.node⟩

/-- Where new equipment is connected: a bus or a busbar section. -/
inductive Junction where
  | bus (id voltageLevel : String)
  | busbarSection (id voltageLevel : String) (node : Node)
  deriving DecidableEq

def Junction.id : Junction → String
  | .bus id _ | .busbarSection id _ _ => id

def Junction.voltageLevel : Junction → String
  | .bus _ vl | .busbarSection _ vl _ => vl

/-- The bus or busbar section with an id, or why there is none. -/
def Network.junction (n : Network) (id : String) : Except Fault Junction :=
  match n.kind? id with
  | none => .error (.attachmentNotFound id)
  | some .bus =>
    match n.bus? id with
    | some b => .ok (.bus b.id b.voltageLevel)
    | none => .error (.attachmentNotFound id)
  | some .busbarSection =>
    match n.busbarSections[id]? with
    | some b => .ok (.busbarSection b.id b.voltageLevel b.node)
    | none => .error (.attachmentNotFound id)
  | some kind => .error (.unexpectedKind id kind)

namespace Run

def junction (id : String) : Run Junction := do
  match (← network).junction id with
  | .ok j => return j
  | .error f => refuse f

def busbarSection (id : String) : Run BusbarSection := do
  let n ← network
  match n.kind? id with
  | none => refuse (.busbarSectionNotFound id)
  | some .busbarSection =>
    match n.busbarSections[id]? with
    | some b => return b
    | none => refuse (.busbarSectionNotFound id)
  | some kind => refuse (.unexpectedKind id kind)

/-- The first unused node of a voltage level. -/
def nextNode (voltageLevel : String) : Run Node := do
  return (← lookUp ((← network).wiring voltageLevel)).nextNode

end Run

end Switchyard
