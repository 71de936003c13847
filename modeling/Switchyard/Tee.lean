import Switchyard.Network

namespace Switchyard

/-- The side of a line in a voltage level, if just one side is there. -/
def Branch.sideIn (b : Branch) (voltageLevel : String) : Option Side :=
  match b.terminal1.voltageLevel == voltageLevel, b.terminal2.voltageLevel == voltageLevel with
  | true, false => some .one
  | false, true => some .two
  | _, _ => none

/-- The voltage levels at the ends of a line. -/
def Branch.ends (b : Branch) : List String :=
  [b.terminal1.voltageLevel, b.terminal2.voltageLevel]

/-- The voltage level where three lines meet, and the side of each line there. -/
structure TeePoint where
  voltageLevel : String
  side1 : Side
  side2 : Side
  side3 : Side
  deriving DecidableEq

/-- The tee point of three lines: their ends lie in four voltage levels, one of
them with an end of each line. -/
def teePoint? (line1 line2 line3 : Branch) : Option TeePoint := do
  let ends := line1.ends ++ line2.ends ++ line3.ends
  if ends.eraseDups.length ≠ 4 then none
  let voltageLevel ← ends.find? fun vl => ends.count vl = 3
  return ⟨voltageLevel, ← line1.sideIn voltageLevel, ← line2.sideIn voltageLevel,
    ← line3.sideIn voltageLevel⟩

/-- Where two lines meet, and the side of each line there. -/
structure MeetingPoint where
  voltageLevel : String
  side1 : Side
  side2 : Side
  deriving DecidableEq

/-- The only voltage level that two lines have in common. -/
def meetingPoint? (line1 line2 : Branch) : Option MeetingPoint :=
  match line1.ends.eraseDups.filter (· ∈ line2.ends) with
  | [voltageLevel] => do
    return ⟨voltageLevel, ← line1.sideIn voltageLevel, ← line2.sideIn voltageLevel⟩
  | _ => none

end Switchyard
