import Switchyard.LineWork

namespace Switchyard

variable [Numbering]

/-- Merges two lines that meet at a tee point, and removes the third one. -/
structure TapRemoval where
  line1 : String
  line2 : String
  tap : String
  merged : String
  mergedName : Option String
  deriving DecidableEq

structure TapRemovalRequest where
  line1 : Option String := none
  line2 : Option String := none
  tap : Option String := none
  merged : Option String := none
  mergedName : Option String := none

def TapRemovalRequest.build (r : TapRemovalRequest) : Except Fault TapRemoval := do
  let line1 ← required "line_to_be_merged1_id" r.line1
  let line2 ← required "line_to_be_merged2_id" r.line2
  let tap ← required "line_to_be_deleted_id" r.tap
  let merged ← required "merged_line_id" r.merged
  return ⟨line1, line2, tap, merged, r.mergedName⟩

namespace TapRemoval

def steps (c : TapRemoval) : Run Unit := do
  let line1 ← Run.line c.line1
  let line2 ← Run.line c.line2
  let tap ← Run.line c.tap
  let some tee := teePoint? line1 line2 tap
    | Run.refuse (.noTeePoint line1.id line2.id tap.id)
  Run.checkNewIds [line1.id, line2.id, tap.id] [] [c.merged]
  let owner := (← Run.network).serial
  Run.warnOfLostLimits line1 tee.side1
  Run.warnOfLostLimits line2 tee.side2
  Run.removeLines [line1.id, line2.id, tap.id]
  Run.pruneLeft
    [(line1.id, line1.terminal tee.side1), (line2.id, line2.terminal tee.side2),
      (tap.id, tap.terminal1), (tap.id, tap.terminal2)]
  let merged ←
    Run.createLine (mergedLine owner c.merged c.mergedName line1 line2 tee.side1 tee.side2)
  Run.emit (.linesMerged merged line1.id line2.id)
  Run.removeVoltageLevelLeft tee.voltageLevel

def impact (c : TapRemoval) (n : Network) : Impact :=
  .ofBool <|
    match n.line? c.line1, n.line? c.line2, n.line? c.tap with
    | some line1, some line2, some tap => (teePoint? line1 line2 tap).isSome
    | _, _, _ => false

end TapRemoval

/-- Merges two lines that meet in a voltage level, which is removed if it is
fictitious and nothing is left there. -/
structure LineMerge where
  line1 : String
  line2 : String
  merged : String
  mergedName : Option String
  deriving DecidableEq

structure LineMergeRequest where
  line1 : Option String := none
  line2 : Option String := none
  merged : Option String := none
  mergedName : Option String := none

def LineMergeRequest.build (r : LineMergeRequest) : Except Fault LineMerge := do
  let line1 ← required "line1_id" r.line1
  let line2 ← required "line2_id" r.line2
  let merged ← required "line_id" r.merged
  return ⟨line1, line2, merged, r.mergedName⟩

namespace LineMerge

def steps (c : LineMerge) : Run Unit := do
  let line1 ← Run.line c.line1
  let line2 ← Run.line c.line2
  let some meeting := meetingPoint? line1 line2
    | Run.refuse (.noCommonVoltageLevel line1.id line2.id)
  Run.checkNewIds [line1.id, line2.id] [] [c.merged]
  let owner := (← Run.network).serial
  Run.warnOfLostLimits line1 meeting.side1
  Run.warnOfLostLimits line2 meeting.side2
  Run.removeLines [line1.id, line2.id]
  Run.pruneLeft
    [(line1.id, line1.terminal meeting.side1), (line2.id, line2.terminal meeting.side2)]
  let merged ← Run.createLine <|
    mergedLine owner c.merged c.mergedName line1 line2 meeting.side1 meeting.side2
  Run.emit (.linesMerged merged line1.id line2.id)
  if (← Run.network).voltageLevels[meeting.voltageLevel]?.any (·.fictitious) then
    Run.removeVoltageLevelLeft meeting.voltageLevel

def impact (c : LineMerge) (n : Network) : Impact :=
  .ofBool <|
    match n.line? c.line1, n.line? c.line2 with
    | some line1, some line2 => (meetingPoint? line1 line2).isSome
    | _, _ => false

end LineMerge

end Switchyard
