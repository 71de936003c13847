import Switchyard.Proofs.FeederSteps
import Switchyard.Proofs.Halves
import Switchyard.Proofs.Listings

namespace Switchyard

open Std Network

variable {n m : Network} {bays : List LaidBay} {c : Connectable}

theorem FeederBays.length_bays {r : Request} {c : FeederBays}
    (h : r.build = .ok (.feederBays c)) : c.bays.length = c.draft.sides.length := by
  cases r with
  | injectionBay r =>
    obtain ⟨_ | d, _ | bay, force⟩ := r <;> cases h
    rfl
  | branchBays r =>
    obtain ⟨_ | d, _ | bay1, _ | bay2, force⟩ := r <;> cases h
    rfl
  | transformerBays r =>
    obtain ⟨_ | d, _ | bay1, _ | bay2, _ | bay3, force⟩ := r <;> cases h
    rfl
  | feederConnection m => cases h
  | feederRemoval r | coupling r | sectionInsertion r | grid r | lineTap r | lineCut r
  | tapRemoval r | lineMerge r | teeReplacement r =>
    simp only [Request.build] at h
    cases hr : r.build <;> rw [hr] at h <;> cases h

namespace Network.Extended

theorem isSome_connectable? (h : Extended ∅ (laid bays) {c} n m) (id : String) :
    (m.connectable? id).isSome ↔ (n.connectable? id).isSome ∨ id = c.id := by
  simp only [Option.isSome_iff_exists, h.coherent.connectable?_eq_some_iff,
    h.base.connectable?_eq_some_iff, h.keeps_iff, Set.mem_singleton_iff]
  grind

end Network.Extended

namespace Modification

/-- Removing equipment that came besides with its bays succeeds, and leaves
nothing besides. -/
theorem extended_feederRemoval (h : Extended ∅ (laid bays) {c} n m)
    (hserves : n.Serves bays (c.terminals.map (·.2))) (naming : NamingStrategy) (strict : Bool) :
    ((feederRemoval ⟨c.id⟩).apply m naming strict).Succeeds ∧
      Extended ∅ ∅ ∅ n ((feederRemoval ⟨c.id⟩).apply m naming strict).network := by
  have hfound : m.connectable? c.id = some c :=
    h.coherent.connectable?_eq_some_iff.mpr (h.keeps_new rfl)
  have hb : c.isBusbarSection = false := by
    have hfree := h.free c rfl
    cases c with
    | busbarSection b => cases hfree
    | _ => rfl
  obtain ⟨t, u, hprune, hremove, hsteps, hrun⟩ :=
    @FeederRemoval.steps_of_found _ False (fun _ => False) ⟨m, []⟩ ⟨c.id⟩ h.coherent c hfound hb
  have hout : (feederRemoval ⟨c.id⟩).apply m naming strict = ⟨u.network, u.events, none⟩ := by
    simp only [apply, run, Run.outcome, hrun strict]
  have hpruned := Run.extended_pruneBays h (fun _ _ => Set.notMem_empty _) hserves hprune
  have hremoved := hpruned.removeConnectable rfl
    (fun x hx => hserves.seats (List.mem_map_of_mem hx)) hremove
  rw [Set.sdiff_self] at hremoved
  obtain ⟨more, hevents, hquiet⟩ := hsteps.events
  rw [List.nil_append] at hevents
  rw [hout]
  exact ⟨⟨rfl, hevents ▸ hquiet⟩, hremoved⟩

/-- Equipment created with its bays is the only one that is new. Removing it gives
the network before. -/
theorem listing_of_feeders_removed (h : n.Coherent False) {r : Request} {d : FeederBays}
    (hbuild : r.build = .ok (.feederBays d)) (hroom : d.HasRoom n)
    {naming naming' : NamingStrategy} {strict strict' : Bool}
    (hcreate : ((feederBays d).apply n naming strict).Succeeds) :
    ∃ id, n.connectable? id = none ∧
      (∀ x, (((feederBays d).apply n naming strict).network.connectable? x).isSome ↔
        (n.connectable? x).isSome ∨ x = id) ∧
      ((feederRemoval ⟨id⟩).apply ((feederBays d).apply n naming strict).network naming'
        strict').Succeeds ∧
      ((feederRemoval ⟨id⟩).apply ((feederBays d).apply n naming strict).network naming'
        strict').network.listing = n.listing := by
  obtain ⟨t, hok, ht⟩ := Run.ok_of_succeeds hcreate
  have hnetwork : ((feederBays d).apply n naming strict).network = t.network := ht
  obtain ⟨c, bays, hserves, hmade⟩ :=
    FeederBays.extended_steps (s := ⟨n, []⟩) (FeederBays.length_bays hbuild) h hroom hok
  obtain ⟨hsucceeds, hgone⟩ := extended_feederRemoval hmade hserves naming' strict'
  have hnew : n.connectable? c.id = none := by
    cases hx : n.connectable? c.id with
    | none => rfl
    | some e => exact absurd (keeps_of_connectable? hx) (hmade.fresh c rfl e)
  rw [hnetwork]
  exact ⟨c.id, hnew, hmade.isSome_connectable?, hsucceeds, hgone.listing_eq⟩

/-- A transformer with two sides at the busbar section that a line starts from, and
one at the bus where it ends. -/
def spanTransformer : FeederBays where
  draft := .transformer { owner := 0, id := "T" }
  bays := [{ target := "B1", order := some 10 }, { target := "B2" },
    { target := "B1", order := some 20, direction := .top }]
  force := false

/-- A busbar section at a high number, another one at the first, and equipment at the last number
but one. -/
def crowdedRails : List Operation :=
  [.change (.addVoltageLevel { id := "V" }),
    .change (.addBusbarSection { voltageLevel := "V", id := "B", node := 5 }),
    .change (.addBusbarSection { voltageLevel := "V", id := "B0", node := 0 }),
    .change (.addConnectable (.injection
      { owner := 0, id := "LD", terminal := some (.atNode "V" 4294967294) }))]

/-- Equipment with a bay at a busbar section. -/
def feederAtB : FeederBays where
  draft := .injection { owner := 0, id := "X" }
  bays := [{ target := "B", order := some 10 }]
  force := false

end Modification

end Switchyard
