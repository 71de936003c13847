import Switchyard.Event
import Switchyard.Naming
import Switchyard.Network.Create
import Switchyard.Network.Remove

namespace Switchyard

variable [Numbering]

/-- A modification under way: the network as changed so far, and what happened,
in order. -/
structure Session where
  network : Network
  events : List Event := []

/-- The steps of a modification. What was done before a fault stays done. -/
abbrev Run := EStateM Fault Session

/-- How the application of a modification ended, with the fault that was raised. -/
structure Outcome where
  network : Network
  events : List Event
  fault : Option Fault

/-- What applying a modification would do. -/
inductive Impact where
  | noImpact
  | hasImpact
  | cannotBeApplied
  deriving DecidableEq

def Impact.text : Impact → String
  | .noImpact => "NoImpact"
  | .hasImpact => "HasImpact"
  | .cannotBeApplied => "CannotBeApplied"

def Impact.ofBool (applicable : Bool) : Impact :=
  if applicable then .hasImpact else .cannotBeApplied

namespace Run

def network : Run Network := do
  return (← get).network

/-- Changes the network. -/
def edit {α : Type} (change : Edit α) : Run α := fun s =>
  match change s.network with
  | .ok a n => .ok a { s with network := n }
  | .error f n => .error f { s with network := n }

/-- Looks something up that may be missing. -/
def lookUp {α : Type} (answer : Except Fault α) : Run α :=
  match answer with
  | .ok a => return a
  | .error f => throw f

def emit (e : Event) : Run Unit :=
  modify fun s => { s with events := s.events ++ [e] }

/-- Reports a fault and stops there. -/
def refuse {α : Type} (f : Fault) : Run α := do
  emit (.refused f)
  throw f

/-- Applies the failure policy to a fault already reported: it is raised if
`strict`, and passed over if not. -/
def fail (strict : Bool) (f : Fault) : Run Unit :=
  if strict then throw f else return

/-- Reports a fault and applies the failure policy to it. -/
def giveUp (strict : Bool) (f : Fault) : Run Unit := do
  emit (.refused f)
  fail strict f

/-- Applies the failure policy to a fault. One that no report tells is reported
as the failure of the modification. Internal faults are always raised. -/
def settle (strict : Bool) (f : Fault) : Run Unit := do
  if f.kind = .internal then throw f
  if !(← get).events.any (·.isError) then emit (.failed f)
  fail strict f

/-- Runs the steps, and applies the failure policy to the fault that ends them. -/
def finish (strict : Bool) (steps : Run Unit) : Run Unit := fun s =>
  match steps s with
  | .ok a s => .ok a s
  | .error f s => settle strict f s

/-- What comes of running the steps on a network. -/
def outcome (steps : Run Unit) (n : Network) : Outcome :=
  match steps { network := n } with
  | .ok _ s => ⟨s.network, s.events, none⟩
  | .error f s => ⟨s.network, s.events, some f⟩

end Run

end Switchyard
