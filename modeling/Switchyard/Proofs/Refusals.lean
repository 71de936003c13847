import Switchyard.Modification
import Switchyard.Proofs.FailedCouplings
import Switchyard.Proofs.FailedFeeders
import Switchyard.Proofs.FailedMerges
import Switchyard.Proofs.FeederRoundTrip

namespace Switchyard

open Std Network

/-- Where a fault in the steps leaves the listing as it was, so does a failure. -/
theorem Run.listing_of_failure {tight : Prop} {doomed : String → Prop} {n : Network}
    {steps : Run Unit} {post : Unit → Session → Prop} (h : Traced tight doomed steps ⟨n, []⟩ post)
    (hn : n.Coherent tight) (hsteps : steps.Fails ⟨n, []⟩ fun _ t => t.network.listing = n.listing)
    {strict : Bool} (hfail : ¬((steps.finish strict).outcome n).Succeeds) :
    ((steps.finish strict).outcome n).network.listing = n.listing := by
  obtain ⟨f, t, hr, hnetwork, -⟩ := h.error_of_not_succeeds hn hfail
  rw [hnetwork]
  exact hsteps f t hr

namespace Modification

/-- The modifications that find every fault before they change anything, or else
undo what they changed. -/
def ChecksFirst : Modification → Prop
  | .feederBays _ | .coupling _ | .tapRemoval _ | .lineMerge _ => True
  | _ => False

theorem listing_of_refused {n : Network} (h : n.Coherent False) {r : Request} {m : Modification}
    (hbuild : r.build = .ok m) (hm : m.ChecksFirst) (hroom : m.HasRoom n)
    {naming : NamingStrategy} {strict : Bool} (hfail : ¬(m.apply n naming strict).Succeeds) :
    (m.apply n naming strict).network.listing = n.listing := by
  have hspared : ∀ {steps : Run Unit}, steps.Spares ⟨n, []⟩ →
      steps.Fails ⟨n, []⟩ fun _ t => t.network.listing = n.listing := fun hspares =>
    hspares.mono fun _ _ ht => congrArg listing ht
  cases m with
  | feederBays c =>
    have htraced : Run.Traced False (fun _ => False) (c.steps naming) ⟨n, []⟩ fun _ _ => True :=
      c.traced_steps naming fun _ => id
    have hrestores := FeederBays.restores_steps (s := ⟨n, []⟩) (FeederBays.length_bays hbuild) h
      hroom naming
    exact Run.listing_of_failure htraced h (hrestores.mono fun _ _ ht => ht.listing_eq) hfail
  | coupling c =>
    have htraced : Run.Builds False (fun _ => False) (c.steps naming) ⟨n, []⟩ :=
      c.builds_steps naming fun _ => id
    exact Run.listing_of_failure htraced h
      (hspared (c.spares_steps (s := ⟨n, []⟩) h hroom naming)) hfail
  | tapRemoval c =>
    have htraced : Run.Traced False (fun _ => True) c.steps ⟨n, []⟩ fun _ _ => True :=
      c.traced_steps fun _ => trivial
    exact Run.listing_of_failure htraced h (hspared (c.spares_steps h)) hfail
  | lineMerge c =>
    have htraced : Run.Traced False (fun _ => True) c.steps ⟨n, []⟩ fun _ _ => True :=
      c.traced_steps fun _ => trivial
    exact Run.listing_of_failure htraced h (hspared (c.spares_steps h)) hfail
  | _ => exact hm.elim

/-- A branch from a busbar section to a bus, drawn up for another network. -/
def foreignBranch : FeederBays where
  draft := .branch { owner := 1, id := "K" }
  bays := [{ target := "B1", order := some 10 }, { target := "B2" }]
  force := false

/-- A busbar section at the first number, and equipment at the last number but one. -/
def crowdedRail : List Operation :=
  [.change (.addVoltageLevel { id := "V" }),
    .change (.addBusbarSection { voltageLevel := "V", id := "B", node := 0 }),
    .change (.addConnectable (.injection
      { owner := 0, id := "LD", terminal := some (.atNode "V" 4294967294) }))]

end Modification

end Switchyard
