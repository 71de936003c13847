import Switchyard.Proofs.FailedTaps
import Switchyard.Proofs.Halves
import Switchyard.Proofs.Success

namespace Switchyard

open Std Network

/-- Where a fault in the steps leaves the network as it was or is a late conflict, a
failure does, and reports the conflict. -/
theorem Run.unchanged_or_reported {tight : Prop} {doomed : String → Prop} {n : Network}
    {steps : Run Unit} {post : Unit → Session → Prop} {p : Fault → Prop}
    (h : Traced tight doomed steps ⟨n, []⟩ post) (hn : n.Coherent tight)
    (hsteps : steps.Fails ⟨n, []⟩ fun f t => t.network = n ∨ p f) {strict : Bool}
    (hfail : ¬((steps.finish strict).outcome n).Succeeds) :
    ((steps.finish strict).outcome n).network = n ∨
      ∃ f, ((steps.finish strict).outcome n).Reports f ∧ p f := by
  obtain ⟨f, t, hr, hnetwork, hreport⟩ := h.error_of_not_succeeds hn hfail
  rw [hnetwork]
  exact (hsteps f t hr).imp_right fun hp => ⟨f, hreport, hp⟩

namespace Modification

/-- The modifications that replace lines by lines to somewhere else. -/
def Diverts : Modification → Prop
  | .lineTap _ | .lineCut _ | .teeReplacement _ => True
  | _ => False

theorem unchanged_or_reported {n : Network} (h : n.Coherent False) {m : Modification}
    (hm : m.Diverts) (hroom : m.HasRoom n) {naming : NamingStrategy} {strict : Bool}
    (hfail : ¬(m.apply n naming strict).Succeeds) :
    (m.apply n naming strict).network = n ∨
      ∃ f, (m.apply n naming strict).Reports f ∧ LateConflict n m f := by
  cases m with
  | lineTap c =>
    have htraced : Run.Traced False (fun _ => False) (c.steps naming) ⟨n, []⟩ fun _ _ => True :=
      c.traced_steps naming fun _ => id
    exact Run.unchanged_or_reported htraced h (c.fails_steps (s := ⟨n, []⟩) h hroom naming) hfail
  | lineCut c =>
    have htraced : Run.Traced False (fun _ => False) (c.steps naming) ⟨n, []⟩ fun _ _ => True :=
      c.traced_steps naming fun _ => id
    exact Run.unchanged_or_reported htraced h (c.fails_steps (s := ⟨n, []⟩) h hroom naming) hfail
  | teeReplacement c =>
    have htraced : Run.Traced False ((teeReplacement c).Dooms n) (c.steps naming) ⟨n, []⟩
        fun _ _ => True := c.traced_steps naming fun j hj vl => by simp [Dooms, hj]
    exact Run.unchanged_or_reported htraced h (c.fails_steps (s := ⟨n, []⟩) h hroom naming) hfail
  | _ => exact hm.elim

/-- The second half is to have the id that the breaker of the first one gets. -/
def takenBreaker : LineCut where
  line := "L"
  target := "B3"
  percent := 50
  line1 := "A"
  line1Name := none
  line2 := "A_BREAKER"
  line2Name := none

/-- The modification fails when it has changed the network. -/
def FailsLate (m : Modification) (n : Network) : Prop :=
  ¬(m.apply n .standard true).Succeeds ∧ (m.apply n .standard true).network.listing ≠ n.listing

theorem FailsLate.of_branches {m : Modification} {n : Network}
    (hfail : ¬(m.apply n .standard true).Succeeds)
    (hlines : (m.apply n .standard true).network.listing.branches.map (·.id) ≠
      n.listing.branches.map (·.id)) : m.FailsLate n :=
  ⟨hfail, fun hsame => hlines (congrArg (·.branches.map (·.id)) hsame)⟩

/-- A line is to be cut at the busbar section of the third voltage level. -/
def cutAtB3 (line : String) : LineCut :=
  { takenBreaker with line, line2 := "C" }

/-- The new voltage level is to have the id of the line, and to lie in a new substation. -/
def takenLevel : LineTap where
  line := "L"
  target := "B3"
  tap := { owner := 0, id := "T" }
  percent := 25
  voltageLevel := "L"
  voltageLevelName := none
  createSubstation := true
  substation := some "S"
  substationName := none
  line1 := "A"
  line1Name := none
  line2 := "C"
  line2Name := none

/-- A line besides, from a node where nothing else is. -/
def looseEnd : List Operation :=
  spannedLine ++ [.change (.addConnectable (.branch
    { owner := 0, id := "M", terminal1 := some (.atNode "X" 1),
      terminal2 := some (.atBus "W" "B2") }))]

/-- Equipment besides, at the last number but one. -/
def crowdedEnd : List Operation :=
  spannedLine ++ [.change (.addConnectable (.injection
    { owner := 0, id := "LD", terminal := some (.atNode "X" 4294967294) }))]

end Modification

end Switchyard
