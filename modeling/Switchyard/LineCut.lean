import Switchyard.LineWork

namespace Switchyard

variable [Numbering]

/-- Cuts a line in two and connects both halves to a bus or busbar section. -/
structure LineCut where
  line : String
  target : String
  percent : Float
  line1 : String
  line1Name : Option String
  line2 : String
  line2Name : Option String

structure LineCutRequest where
  line : Option String := none
  target : Option String := none
  percent : Option Float := none
  line1 : Option String := none
  line1Name : Option String := none
  line2 : Option String := none
  line2Name : Option String := none

/-- The line is cut in the middle, and the new ids are made from its own, unless
others are given. -/
def LineCutRequest.build (r : LineCutRequest) : Except Fault LineCut := do
  let line ← required "line_id" r.line
  let target ← required "bbs_or_bus_id" r.target
  return ⟨line, target, r.percent.getD 50, r.line1.getD s!"{line}_1", r.line1Name,
    r.line2.getD s!"{line}_2", r.line2Name⟩

namespace LineCut

/-- Both halves meet on a bus, or have a bay each at a busbar section. -/
def createTargets (naming : NamingStrategy) (base1 base2 : String) :
    Junction → Run (Halves Terminal)
  | .bus id vl => return ⟨.atBus vl id, .atBus vl id⟩
  | .busbarSection id vl node => Run.createTwoBays naming vl ⟨id, node⟩ base1 base2

def steps (c : LineCut) (naming : NamingStrategy) : Run Unit := do
  let line ← Run.line c.line
  Run.checkPercent c.percent
  let junction ← Run.junction c.target
  Run.checkNewIds [line.id] [] [c.line1, c.line2]
  let owner := (← Run.network).serial
  Run.removeLine line.id
  let ends ← createTargets naming c.line1 c.line2 junction
  let _ ← Run.createLine
    { line.firstPart owner c.line1 c.line1Name c.percent with terminal2 := some ends.first }
  let _ ← Run.createLine
    { line.secondPart owner c.line2 c.line2Name c.percent with terminal1 := some ends.second }
  Run.emit (.lineCut junction.voltageLevel c.line1 c.line2 line.id)

def impact (c : LineCut) (n : Network) : Impact :=
  .ofBool ((n.line? c.line).isSome && percentInRange c.percent && (n.junction c.target).isOk)

end LineCut

end Switchyard
