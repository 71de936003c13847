import Switchyard.Kind

namespace Switchyard

/-- The place of a busbar section in the grid of its voltage level. -/
structure BusbarPosition where
  busbarIndex : Int32
  sectionIndex : Int32
  deriving DecidableEq

/-- The rank of a feeder along the busbars of its voltage level. -/
abbrev FeederOrder := Int32

inductive Direction where
  | top
  | bottom
  | undefined
  deriving DecidableEq

/-- How one side of equipment is drawn in its voltage level. -/
structure Feeder where
  name : Option String
  order : Option FeederOrder
  direction : Direction
  deriving DecidableEq

/-- The feeders of equipment, at most one a side. -/
structure FeederPosition where
  feeder1 : Option Feeder := none
  feeder2 : Option Feeder := none
  feeder3 : Option Feeder := none
  deriving DecidableEq

def FeederPosition.feeder (p : FeederPosition) : Side → Option Feeder
  | .one => p.feeder1
  | .two => p.feeder2
  | .three => p.feeder3

def FeederPosition.setFeeder (p : FeederPosition) (f : Feeder) : Side → FeederPosition
  | .one => { p with feeder1 := some f }
  | .two => { p with feeder2 := some f }
  | .three => { p with feeder3 := some f }

def FeederPosition.toList (p : FeederPosition) : List (Side × Feeder) :=
  [Side.one, Side.two, Side.three].filterMap fun s => (p.feeder s).map (s, ·)

def FeederPosition.isEmpty (p : FeederPosition) : Bool :=
  p.toList.isEmpty

@[simp] theorem FeederPosition.feeder_setFeeder (p : FeederPosition) (f : Feeder) (s t : Side) :
    (p.setFeeder f s).feeder t = if t = s then some f else p.feeder t := by
  cases s <;> cases t <;> rfl

end Switchyard
