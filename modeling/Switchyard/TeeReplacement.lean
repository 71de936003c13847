import Switchyard.LineWork

namespace Switchyard

variable [Numbering]

/-- Replaces the tee point of three lines by the voltage level at the far end of
the third one, which is removed. The other two are replaced by lines that end at
a bus or busbar section there. -/
structure TeeReplacement where
  line1 : String
  line2 : String
  tap : String
  target : String
  newLine1 : String
  newLine1Name : Option String
  newLine2 : String
  newLine2Name : Option String
  deriving DecidableEq

structure TeeReplacementRequest where
  line1 : Option String := none
  line2 : Option String := none
  tap : Option String := none
  target : Option String := none
  newLine1 : Option String := none
  newLine1Name : Option String := none
  newLine2 : Option String := none
  newLine2Name : Option String := none

def TeeReplacementRequest.build (r : TeeReplacementRequest) : Except Fault TeeReplacement := do
  let line1 ← required "tee_point_line1_id" r.line1
  let line2 ← required "tee_point_line2_id" r.line2
  let tap ← required "tee_point_line_to_remove_id" r.tap
  let target ← required "bbs_or_bus_id" r.target
  let newLine1 ← required "new_line1_id" r.newLine1
  let newLine2 ← required "new_line2_id" r.newLine2
  return ⟨line1, line2, tap, target, newLine1, r.newLine1Name, newLine2, r.newLine2Name⟩

namespace TeeReplacement

/-- A new bus for each line, or a bay for each line at a busbar section. -/
def createTargets (naming : NamingStrategy) (base1 base2 : String) :
    Junction → Run (Halves Terminal)
  | .bus id vl => do
    let first ← Run.createBusBay naming vl id base1
    let second ← Run.createBusBay naming vl id base2
    return ⟨first, second⟩
  | .busbarSection id vl node => Run.createTwoBays naming vl ⟨id, node⟩ base1 base2

/-- The line that replaces the first one, up to the tapped voltage level. -/
def firstLine (c : TeeReplacement) (owner : Nat) (line tap : Branch) (side : Side)
    (near : Terminal) : BranchDraft :=
  { owner, id := c.newLine1, name := c.newLine1Name
    terminal1 := some (line.terminal side.opposite)
    terminal2 := some near
    parameters := line.parameters.merged tap.parameters
    limits1 := line.limits side.opposite
    limits2 := line.limits side }

/-- The line that replaces the second one, from the tapped voltage level on. -/
def secondLine (c : TeeReplacement) (owner : Nat) (line tap : Branch) (side : Side)
    (near : Terminal) : BranchDraft :=
  { owner, id := c.newLine2, name := c.newLine2Name
    terminal1 := some near
    terminal2 := some (line.terminal side.opposite)
    parameters := tap.parameters.merged line.parameters
    limits1 := line.limits side
    limits2 := line.limits side.opposite }

/-- The voltage level at the end of the third line away from the tee point. -/
def tappedVoltageLevel (tee : TeePoint) (tap : Branch) : String :=
  (tap.terminal tee.side3.opposite).voltageLevel

def steps (c : TeeReplacement) (naming : NamingStrategy) : Run Unit := do
  let line1 ← Run.line c.line1
  let line2 ← Run.line c.line2
  let tap ← Run.line c.tap
  let some tee := teePoint? line1 line2 tap
    | Run.refuse (.noTeePoint line1.id line2.id tap.id)
  let tapped := tappedVoltageLevel tee tap
  let junction ← Run.junction c.target
  if junction.voltageLevel ≠ tapped then Run.refuse (.notInVoltageLevel c.target tapped)
  Run.checkNewIds [line1.id, line2.id, tap.id] [] [c.newLine1, c.newLine2]
  let owner := (← Run.network).serial
  Run.removeLines [line1.id, line2.id, tap.id]
  Run.pruneLeft
    [(line1.id, line1.terminal tee.side1), (line2.id, line2.terminal tee.side2),
      (tap.id, tap.terminal1), (tap.id, tap.terminal2)]
  let ends ← createTargets naming c.newLine1 c.newLine2 junction
  let _ ← Run.createLine (c.firstLine owner line1 tap tee.side1 ends.first)
  let _ ← Run.createLine (c.secondLine owner line2 tap tee.side2 ends.second)
  Run.removeVoltageLevelLeft tee.voltageLevel
  Run.emit (.teePointReplaced tee.voltageLevel tapped c.newLine1 c.newLine2)

def impact (c : TeeReplacement) (n : Network) : Impact :=
  .ofBool <|
    match n.line? c.line1, n.line? c.line2, n.line? c.tap with
    | some line1, some line2, some tap =>
      match teePoint? line1 line2 tap, n.junction c.target with
      | some tee, .ok junction => junction.voltageLevel == tappedVoltageLevel tee tap
      | _, _ => false
    | _, _, _ => false

end TeeReplacement

end Switchyard
