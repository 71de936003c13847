namespace Switchyard

/-- A value that may be exceeded for `duration` seconds only. -/
structure TemporaryLimit where
  name : String
  duration : Nat
  value : Float
  fictitious : Bool
  deriving DecidableEq

structure LoadingLimits where
  permanent : Float
  temporary : List TemporaryLimit
  deriving DecidableEq

/-- The limits of one side of a branch. -/
structure LimitSet where
  activePower : Option LoadingLimits := none
  apparentPower : Option LoadingLimits := none
  current : Option LoadingLimits := none
  deriving DecidableEq

def LimitSet.isEmpty (s : LimitSet) : Bool :=
  s.activePower.isNone && s.apparentPower.isNone && s.current.isNone

/-- The lower of two limits, where NaN stands for an undefined one. -/
def lowestLimit (a b : Float) : Float :=
  if a.isNaN then b else if b.isNaN then a else if b < a then b else a

/-- Temporary limits defined on both sides cannot be combined. -/
def LoadingLimits.clash (a b : LoadingLimits) : Bool :=
  !a.temporary.isEmpty && !b.temporary.isEmpty

/-- The permanent limit is the lowest defined one. Temporary limits come from
the side that defines them, and are dropped when both sides do. -/
def LoadingLimits.merge (a b : LoadingLimits) : LoadingLimits where
  permanent := lowestLimit a.permanent b.permanent
  temporary :=
    if a.clash b then [] else if a.temporary.isEmpty then b.temporary else a.temporary

def mergeLoading : Option LoadingLimits → Option LoadingLimits → Option LoadingLimits
  | some a, some b => some (a.merge b)
  | some a, none => some a
  | none, b => b

def clashLoading : Option LoadingLimits → Option LoadingLimits → Bool
  | some a, some b => a.clash b
  | _, _ => false

/-- The limits of a line whose far side has limits `a` and whose other end,
with limits `b`, is merged away. -/
def LimitSet.merge (a b : LimitSet) : LimitSet where
  activePower := mergeLoading a.activePower b.activePower
  apparentPower := mergeLoading a.apparentPower b.apparentPower
  current := mergeLoading a.current b.current

/-- Some temporary limits are dropped by `LimitSet.merge`. -/
def LimitSet.clash (a b : LimitSet) : Bool :=
  clashLoading a.activePower b.activePower || clashLoading a.apparentPower b.apparentPower ||
    clashLoading a.current b.current

/-- The electrical parameters of a branch. -/
structure BranchParameters where
  r : Float := 0
  x : Float := 0
  g1 : Float := 0
  b1 : Float := 0
  g2 : Float := 0
  b2 : Float := 0
  deriving DecidableEq

/-- The parameters of `percent` percent of a branch. -/
def BranchParameters.scaled (p : BranchParameters) (percent : Float) : BranchParameters :=
  let ratio := percent / 100
  { r := p.r * ratio
    x := p.x * ratio
    g1 := p.g1 * ratio
    b1 := p.b1 * ratio
    g2 := p.g2 * ratio
    b2 := p.b2 * ratio }

/-- The parameters of two branches in series. -/
def BranchParameters.merged (p q : BranchParameters) : BranchParameters where
  r := p.r + q.r
  x := p.x + q.x
  g1 := p.g1 + q.g1
  b1 := p.b1 + q.b1
  g2 := p.g2 + q.g2
  b2 := p.b2 + q.b2

end Switchyard
