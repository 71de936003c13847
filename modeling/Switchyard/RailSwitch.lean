import Switchyard.Switching

namespace Switchyard

open Std

variable [Numbering]

/-- A switch at a busbar section, and the terminals met first behind it. -/
structure RailSwitch where
  rail : String
  kind : SwitchKind
  fictitious : Bool
  attachments : List Attachment
  deriving DecidableEq

/-- The first hop of the paths under way, and the switches found so far by the
node at their far end. -/
structure RailSearch where
  hop : Option (Node × Switch) := none
  found : ExtTreeMap Node RailSwitch := ∅

/-- Notes a terminal behind the switch of the first hop. -/
def RailSearch.note (s : RailSearch) (rail : String) (node : Node) (hop : Switch)
    (a : Attachment) : RailSearch :=
  let entry := s.found.getD node ⟨rail, hop.kind, hop.fictitious, []⟩
  { s with found := s.found.insert node { entry with attachments := entry.attachments ++ [a] } }

/-- The switches at a busbar section, by the node at their far end. Each path
ends at the first terminal. Internal connections at the busbar section itself
are not followed. -/
def Wiring.railSwitches (w : Wiring) (rail : Rail) : ExtTreeMap Node RailSwitch :=
  (w.traverse rail.node
    (fun (s : RailSearch) h =>
      if h.target = rail.node then (.leave, s)
      else
        let s :=
          if h.source = rail.node then { s with hop := (w.switchOf h.edge).map (h.target, ·) }
          else s
        match s.hop, w.terminals[h.target]? with
        | none, _ => (.leave, s)
        | some _, none => (.onward, s)
        | some (node, hop), some a => (.leave, s.note rail.id node hop a))
    {}).2.found

/-- A switch that leads to nothing but busbar sections. -/
def Network.isCoupling (n : Network) (r : RailSwitch) : Bool :=
  r.attachments.all (n.busbarSections.contains ·.connectable)

namespace Run

/-- Creates an open copy of a switch between a busbar section and the node at
the far end. A coupling is named after `base`, other switches after the first
equipment behind them. -/
def copyRailSwitch (naming : NamingStrategy) (voltageLevel base : String) (railNode node : Node)
    (r : RailSwitch) : Run Unit := do
  let n ← network
  let base :=
    match r.attachments.find? (!n.busbarSections.contains ·.connectable) with
    | none => base
    | some a =>
      let sided := (n.connectable? a.connectable).any (1 < ·.terminals.length)
      naming.switchBase a.connectable (if sided then some a.side else none)
  if r.kind = .disconnector then
    createSwitch voltageLevel .disconnector (naming.disconnector base railNode node) railNode node
      true r.fictitious
  else
    createSwitch voltageLevel .breaker (naming.breakerBetween base railNode node) railNode node
      true r.fictitious

/-- Copies switches, given with their far ends, to a busbar section. -/
def copyRailSwitches (naming : NamingStrategy) (voltageLevel base : String) (railNode : Node) :
    List (Node × RailSwitch) → Run Unit
  | [] => return
  | (node, r) :: rest => do
    copyRailSwitch naming voltageLevel base railNode node r
    copyRailSwitches naming voltageLevel base railNode rest

end Run

end Switchyard
