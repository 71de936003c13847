namespace Switchyard

/-- The number of a node in its voltage level. -/
abbrev Node := UInt32

/-- An end by which equipment is attached to the network. -/
inductive Side where
  | one
  | two
  | three
  deriving DecidableEq

def Side.number : Side → Nat
  | .one => 1
  | .two => 2
  | .three => 3

def Side.text (s : Side) : String :=
  toString s.number

/-- The other end of equipment with two ends. -/
def Side.opposite : Side → Side
  | .one => .two
  | _ => .one

inductive SwitchKind where
  | breaker
  | disconnector
  | loadBreakSwitch
  deriving DecidableEq

def SwitchKind.text : SwitchKind → String
  | .breaker => "BREAKER"
  | .disconnector => "DISCONNECTOR"
  | .loadBreakSwitch => "LOAD_BREAK_SWITCH"

/-- How the inside of a voltage level is described. -/
inductive TopologyKind where
  | nodeBreaker
  | busBreaker
  deriving DecidableEq

def TopologyKind.text : TopologyKind → String
  | .nodeBreaker => "NODE_BREAKER"
  | .busBreaker => "BUS_BREAKER"

inductive InjectionKind where
  | load
  | generator
  | battery
  | shuntCompensator
  deriving DecidableEq

inductive BranchKind where
  | line
  | twoWindingsTransformer
  deriving DecidableEq

/-- The kinds of objects that carry an id. -/
inductive ObjectKind where
  | substation
  | voltageLevel
  | bus
  | busbarSection
  | switch
  | injection (kind : InjectionKind)
  | branch (kind : BranchKind)
  | threeWindingsTransformer
  deriving DecidableEq

def ObjectKind.text : ObjectKind → String
  | .substation => "SUBSTATION"
  | .voltageLevel => "VOLTAGE_LEVEL"
  | .bus => "BUS"
  | .busbarSection => "BUSBAR_SECTION"
  | .switch => "SWITCH"
  | .injection .load => "LOAD"
  | .injection .generator => "GENERATOR"
  | .injection .battery => "BATTERY"
  | .injection .shuntCompensator => "SHUNT_COMPENSATOR"
  | .branch .line => "LINE"
  | .branch .twoWindingsTransformer => "TWO_WINDINGS_TRANSFORMER"
  | .threeWindingsTransformer => "THREE_WINDINGS_TRANSFORMER"

/-- Objects with terminals, as opposed to containers, buses and switches. -/
def ObjectKind.isConnectable : ObjectKind → Bool
  | .substation | .voltageLevel | .bus | .switch => false
  | _ => true

end Switchyard
