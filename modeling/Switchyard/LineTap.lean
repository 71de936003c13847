import Switchyard.LineWork

namespace Switchyard

variable [Numbering]

/-- Splits a line at a new fictitious voltage level, and connects a new line
from there to a bus or busbar section. Inside the fictitious voltage level, the
halves are on nodes 0 and 2 and the new line on node 3, joined at node 1. -/
structure LineTap where
  line : String
  target : String
  tap : BranchDraft
  percent : Float
  voltageLevel : String
  voltageLevelName : Option String
  createSubstation : Bool
  substation : Option String
  substationName : Option String
  line1 : String
  line1Name : Option String
  line2 : String
  line2Name : Option String

structure LineTapRequest where
  line : Option String := none
  target : Option String := none
  tap : Option BranchDraft := none
  percent : Option Float := none
  voltageLevel : Option String := none
  voltageLevelName : Option String := none
  createSubstation : Bool := false
  substation : Option String := none
  substationName : Option String := none
  line1 : Option String := none
  line1Name : Option String := none
  line2 : Option String := none
  line2Name : Option String := none

/-- The line is split in the middle, and the new ids are made from its own,
unless others are given. -/
def LineTapRequest.build (r : LineTapRequest) : Except Fault LineTap := do
  let line ← required "line_id" r.line
  let tap ← required "line_adder" r.tap
  if tap.kind ≠ .line then throw (.draftOfNoLine tap.id)
  let target ← required "bbs_or_bus_id" r.target
  return {
    line, target, tap
    percent := r.percent.getD 50
    voltageLevel := r.voltageLevel.getD s!"{line}_VL"
    voltageLevelName := r.voltageLevelName
    createSubstation := r.createSubstation
    substation := r.substation
    substationName := r.substationName
    line1 := r.line1.getD s!"{line}_1"
    line1Name := r.line1Name
    line2 := r.line2.getD s!"{line}_2"
    line2Name := r.line2Name }

namespace LineTap

/-- The substation to create, if any. -/
def newSubstation (c : LineTap) : Except Fault (Option String) :=
  match c.createSubstation, c.substation with
  | false, _ => .ok none
  | true, some id => .ok (some id)
  | true, none => .error .substationIdMissing

def createVoltageLevel (c : LineTap) (line : Branch) (substation : Option String) :
    Run Unit := do
  match substation with
  | none => pure ()
  | some id =>
    let s : Substation := { id, name := c.substationName, fictitious := true }
    let _ ← Run.edit s.create
    Run.emit (.substationCreated id)
  let near := (← Run.network).voltageLevels[line.terminal1.voltageLevel]?
  let draft : VoltageLevelDraft :=
    { id := c.voltageLevel, name := c.voltageLevelName, substation, fictitious := true
      nominalV := (near.map (·.nominalV)).getD undefinedValue }
  let _ ← Run.edit draft.create
  Run.emit (.voltageLevelCreated c.voltageLevel)

/-- Replaces the line by its halves. -/
def splitLine (c : LineTap) (line : Branch) : Run Unit := do
  let owner := (← Run.network).serial
  Run.removeLine line.id
  let _ ← Run.createLine
    { line.firstPart owner c.line1 c.line1Name c.percent with
      terminal2 := some (.atNode c.voltageLevel 0) }
  let _ ← Run.createLine
    { line.secondPart owner c.line2 c.line2Name c.percent with
      terminal1 := some (.atNode c.voltageLevel 2) }

/-- Creates what the new line is attached to: a new bus, or a feeder bay. -/
def createTarget (naming : NamingStrategy) (base : String) : Junction → Run Terminal
  | .bus id vl => Run.createBusBay naming vl id base
  | .busbarSection id vl node => do
    let first ← Run.nextNode vl
    Run.createLineBay naming vl ⟨id, node⟩ base ⟨first, first + 1⟩
    return .atNode vl first

def steps (c : LineTap) (naming : NamingStrategy) : Run Unit := do
  let line ← Run.line c.line
  Run.checkPercent c.percent
  let junction ← Run.junction c.target
  match c.newSubstation with
  | .error f => Run.refuse f
  | .ok substation =>
    if c.tap.owner ≠ (← Run.network).serial then Run.refuse (.foreignLine c.tap.id)
    Run.checkNewIds [line.id] [] <|
      [c.voltageLevel, c.line1, c.line2, c.tap.id] ++ substation.toList
    c.createVoltageLevel line substation
    c.splitLine line
    Run.edit (Edit.addConnection c.voltageLevel 0 1)
    Run.edit (Edit.addConnection c.voltageLevel 1 2)
    Run.edit (Edit.addConnection c.voltageLevel 1 3)
    let far ← createTarget naming line.id junction
    let tap ← Run.createLine
      { c.tap with terminal1 := some (.atNode c.voltageLevel 3), terminal2 := some far }
    Run.emit (.lineTapped tap c.line1 c.line2 line.id)

def impact (c : LineTap) (n : Network) : Impact :=
  .ofBool <|
    (n.line? c.line).isSome && percentInRange c.percent && (n.junction c.target).isOk &&
      c.newSubstation.isOk && c.tap.owner == n.serial

end LineTap

end Switchyard
