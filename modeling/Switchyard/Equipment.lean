import Switchyard.Position
import Switchyard.Rating

namespace Switchyard

/-- What a terminal is attached to inside its voltage level. -/
inductive Connection where
  | node (number : Node)
  | bus (id : String)
  deriving DecidableEq

structure Terminal where
  voltageLevel : String
  connection : Connection
  deriving DecidableEq

def Terminal.atNode (voltageLevel : String) (node : Node) : Terminal :=
  ⟨voltageLevel, .node node⟩

def Terminal.atBus (voltageLevel bus : String) : Terminal :=
  ⟨voltageLevel, .bus bus⟩

def Terminal.node? (t : Terminal) : Option Node :=
  match t.connection with
  | .node n => some n
  | .bus _ => none

structure Substation where
  id : String
  name : Option String := none
  fictitious : Bool := false
  deriving DecidableEq

/-- A busbar section is attached to a node, never to a bus. -/
structure BusbarSection where
  id : String
  name : Option String
  voltageLevel : String
  node : Node
  position : Option BusbarPosition
  deriving DecidableEq

def BusbarSection.terminal (b : BusbarSection) : Terminal :=
  .atNode b.voltageLevel b.node

structure Injection where
  id : String
  name : Option String
  kind : InjectionKind
  terminal : Terminal
  p0 : Float
  q0 : Float
  position : Option FeederPosition
  deriving DecidableEq

structure Branch where
  id : String
  name : Option String
  kind : BranchKind
  terminal1 : Terminal
  terminal2 : Terminal
  parameters : BranchParameters
  limits1 : LimitSet
  limits2 : LimitSet
  position : Option FeederPosition
  deriving DecidableEq

/-- The terminal of a line, where any other side than the first stands for the second. -/
def Branch.terminal (b : Branch) : Side → Terminal
  | .one => b.terminal1
  | _ => b.terminal2

def Branch.limits (b : Branch) : Side → LimitSet
  | .one => b.limits1
  | _ => b.limits2

def Branch.terminal? (b : Branch) : Side → Option Terminal
  | .one => some b.terminal1
  | .two => some b.terminal2
  | .three => none

def Branch.limits? (b : Branch) : Side → Option LimitSet
  | .one => some b.limits1
  | .two => some b.limits2
  | .three => none

structure ThreeWindingsTransformer where
  id : String
  name : Option String
  terminal1 : Terminal
  terminal2 : Terminal
  terminal3 : Terminal
  position : Option FeederPosition
  deriving DecidableEq

/-- Any equipment with terminals. -/
inductive Connectable where
  | busbarSection (b : BusbarSection)
  | injection (i : Injection)
  | branch (b : Branch)
  | transformer (t : ThreeWindingsTransformer)
  deriving DecidableEq

namespace Connectable

def id : Connectable → String
  | .busbarSection b => b.id
  | .injection i => i.id
  | .branch b => b.id
  | .transformer t => t.id

def kind : Connectable → ObjectKind
  | .busbarSection _ => .busbarSection
  | .injection i => .injection i.kind
  | .branch b => .branch b.kind
  | .transformer _ => .threeWindingsTransformer

def isBusbarSection : Connectable → Bool
  | .busbarSection _ => true
  | _ => false

/-- The terminals in side order. -/
def terminals : Connectable → List (Side × Terminal)
  | .busbarSection b => [(.one, b.terminal)]
  | .injection i => [(.one, i.terminal)]
  | .branch b => [(.one, b.terminal1), (.two, b.terminal2)]
  | .transformer t => [(.one, t.terminal1), (.two, t.terminal2), (.three, t.terminal3)]

def terminal? (c : Connectable) (s : Side) : Option Terminal :=
  c.terminals.lookup s

def isIn (c : Connectable) (voltageLevel : String) : Bool :=
  c.terminals.any (·.2.voltageLevel == voltageLevel)

def position : Connectable → Option FeederPosition
  | .busbarSection _ => none
  | .injection i => i.position
  | .branch b => b.position
  | .transformer t => t.position

/-- The feeders of the sides attached to a voltage level, in side order. -/
def feedersIn (c : Connectable) (voltageLevel : String) : List Feeder :=
  match c.position with
  | none => []
  | some p =>
    (c.terminals.filter (·.2.voltageLevel == voltageLevel)).filterMap fun t => p.feeder t.1

def ordersIn (c : Connectable) (voltageLevel : String) : List FeederOrder :=
  (c.feedersIn voltageLevel).filterMap (·.order)

end Connectable

end Switchyard
