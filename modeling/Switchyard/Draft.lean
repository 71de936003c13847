import Switchyard.Equipment

namespace Switchyard

/-- A value that is not defined. -/
def undefinedValue : Float := 0.0 / 0.0

/-- A voltage level to create. -/
structure VoltageLevelDraft where
  id : String
  kind : TopologyKind := .nodeBreaker
  name : Option String := none
  substation : Option String := none
  nominalV : Float := undefinedValue
  fictitious : Bool := false

/-- A busbar section to create, under a free id close to the given one if
`unique` is set. -/
structure BusbarSectionDraft where
  voltageLevel : String
  id : String
  node : Node
  name : Option String := none
  position : Option BusbarPosition := none
  unique : Bool := false

structure BusDraft where
  voltageLevel : String
  id : String
  name : Option String := none
  unique : Bool := false

structure SwitchDraft where
  voltageLevel : String
  id : String
  kind : SwitchKind := .disconnector
  node1 : Node
  node2 : Node
  name : Option String := none
  isOpen : Bool := false
  retained : Bool := false
  fictitious : Bool := false
  unique : Bool := false

structure BusSwitchDraft where
  voltageLevel : String
  id : String
  kind : SwitchKind := .breaker
  bus1 : String
  bus2 : String
  name : Option String := none
  isOpen : Bool := false
  fictitious : Bool := false
  unique : Bool := false

/-- An injection to create, drawn up for the network with serial number `owner`. -/
structure InjectionDraft where
  owner : Nat
  id : String
  kind : InjectionKind := .load
  name : Option String := none
  terminal : Option Terminal := none
  p0 : Float := 0
  q0 : Float := 0
  unique : Bool := false

structure BranchDraft where
  owner : Nat
  id : String
  kind : BranchKind := .line
  name : Option String := none
  terminal1 : Option Terminal := none
  terminal2 : Option Terminal := none
  parameters : BranchParameters := {}
  limits1 : LimitSet := {}
  limits2 : LimitSet := {}
  unique : Bool := false

def BranchDraft.terminal? (d : BranchDraft) : Side → Option Terminal
  | .one => d.terminal1
  | .two => d.terminal2
  | .three => none

structure TransformerDraft where
  owner : Nat
  id : String
  name : Option String := none
  terminal1 : Option Terminal := none
  terminal2 : Option Terminal := none
  terminal3 : Option Terminal := none

/-- Equipment to create. -/
inductive ConnectableDraft where
  | injection (d : InjectionDraft)
  | branch (d : BranchDraft)
  | transformer (d : TransformerDraft)

namespace ConnectableDraft

def id : ConnectableDraft → String
  | .injection d => d.id
  | .branch d => d.id
  | .transformer d => d.id

def owner : ConnectableDraft → Nat
  | .injection d => d.owner
  | .branch d => d.owner
  | .transformer d => d.owner

def kind : ConnectableDraft → ObjectKind
  | .injection d => .injection d.kind
  | .branch d => .branch d.kind
  | .transformer _ => .threeWindingsTransformer

def sides : ConnectableDraft → List Side
  | .injection _ => [.one]
  | .branch _ => [.one, .two]
  | .transformer _ => [.one, .two, .three]

/-- Sets the terminal of a side. A side that the equipment does not have is left out. -/
def attach (d : ConnectableDraft) (s : Side) (t : Terminal) : ConnectableDraft :=
  match d, s with
  | .injection d, _ => .injection { d with terminal := some t }
  | .branch d, .one => .branch { d with terminal1 := some t }
  | .branch d, .two => .branch { d with terminal2 := some t }
  | .branch d, .three => .branch d
  | .transformer d, .one => .transformer { d with terminal1 := some t }
  | .transformer d, .two => .transformer { d with terminal2 := some t }
  | .transformer d, .three => .transformer { d with terminal3 := some t }

end ConnectableDraft

end Switchyard
