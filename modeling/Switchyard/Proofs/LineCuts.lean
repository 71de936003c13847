import Switchyard.LineCut
import Switchyard.Proofs.Halves

namespace Switchyard

open Std Network

/-- The halves of a line end at a junction: on its bus, or in bays of its busbar
section, on the four nodes from the next free one on. -/
inductive Network.CutEnds (n : Network) : Junction → List LaidBay → Halves Terminal → Prop
  | bus (id vl : String) : n.CutEnds (.bus id vl) [] ⟨.atBus vl id, .atBus vl id⟩
  | busbarSection {id vl : String} {node : Node} {bays : List LaidBay} {w : Wiring}
    (wired : n.inside? vl = some (.nodeBreaker w)) (rail : n.HasRail vl ⟨id, node⟩)
    (plans : bays.map (·.toBayPlan) = n.twoBays vl ⟨id, node⟩ w.nextNode) :
    n.CutEnds (.busbarSection id vl node) bays
      ⟨.atNode vl w.nextNode, .atNode vl (w.nextNode + 3)⟩

namespace Network.CutEnds

variable {n : Network} {j : Junction} {bays : List LaidBay} {ends : Halves Terminal}

theorem serves (h : n.CutEnds j bays ends) (hn : n.Coherent False)
    (hroom : n.Room j.voltageLevel 4) : n.Serves bays [ends.first, ends.second] := by
  cases h with
  | bus id vl => exact ((Serves.nil n).concat_bus vl id).concat_bus vl id
  | busbarSection hw hr hplans => exact hn.serves_twoBays hr hw hroom hplans

theorem voltageLevel_first (h : n.CutEnds j bays ends) :
    ends.first.voltageLevel = j.voltageLevel := by
  cases h <;> rfl

theorem voltageLevel_second (h : n.CutEnds j bays ends) :
    ends.second.voltageLevel = j.voltageLevel := by
  cases h <;> rfl

end Network.CutEnds

namespace LineCut

variable {c : LineCut} {naming : NamingStrategy} {n : Network} {s t : Session}

theorem extended_createTargets (h : Extended ∅ ∅ ∅ n s.network) {j : Junction}
    (hj : ∀ id vl node, j = .busbarSection id vl node → n.HasRail vl ⟨id, node⟩)
    {base1 base2 : String} {ends : Halves Terminal}
    (hok : createTargets naming base1 base2 j s = .ok ends t) :
    ∃ bays, n.CutEnds j bays ends ∧ Extended ∅ (laid bays) ∅ n t.network := by
  cases j with
  | bus id vl =>
    obtain ⟨rfl, rfl⟩ := pure_eq_ok.mp hok
    refine ⟨[], .bus id vl, ?_⟩
    rwa [laid_nil]
  | busbarSection id vl node =>
    have hr := hj id vl node rfl
    obtain ⟨w, hw⟩ := hr.wiring h.base
    obtain ⟨rfl, bays, hplans, ht⟩ := Run.extended_createTwoBays h (Set.notMem_empty vl) hw hok
    exact ⟨bays, .busbarSection hw hr hplans, ht⟩

/-- Cutting a line leaves its halves in place of it, and the bays they need. -/
theorem extended_steps {line : Branch} (h : Extended ∅ ∅ {.branch line} n s.network)
    (hseats1 : n.Seats line.terminal1) (hseats2 : n.Seats line.terminal2)
    (hline : s.network.line? c.line = some line) (hok : c.steps naming s = .ok () t) :
    ∃ j bays ends, s.network.junction c.target = .ok j ∧ n.CutEnds j bays ends ∧
      Extended ∅ (laid bays)
        {.branch (line.secondHalf c.line2 c.line2Name c.percent ends.second),
          .branch (line.firstHalf c.line1 c.line1Name c.percent ends.first)} n t.network := by
  have hseats : ∀ x ∈ (Connectable.branch line).terminals, n.Seats x.2 := by
    simpa [Connectable.terminals] using ⟨hseats1, hseats2⟩
  simp only [steps, bind_eq_ok, Run.line_eq_ok, Run.junction_eq_ok, Run.network_eq_ok,
    Run.emit_eq_ok] at hok
  obtain ⟨_, _, ⟨hfound, rfl⟩, _, s1, hpercent, j, _, ⟨hj, rfl⟩, _, s2, hids, _, _, ⟨rfl, rfl⟩, _,
    s3, hremove, ends, s4, htargets, id1, s5, hfirst, id2, s6, hsecond, rfl⟩ := hok
  rw [hline] at hfound
  cases hfound
  cases Run.checkPercent_eq_ok hpercent
  cases Run.checkNewIds_eq_ok hids
  have hremoved := Run.extended_removeLine h rfl rfl hseats hremove
  rw [Set.sdiff_self] at hremoved
  have hrail : ∀ id vl node, j = .busbarSection id vl node → n.HasRail vl ⟨id, node⟩ := by
    rintro id vl node rfl
    exact h.hasRail_iff.mp (h.coherent.hasRail_of_junction hj)
  obtain ⟨bays, hends, hlaid⟩ := extended_createTargets hremoved hrail htargets
  have hone := Run.extended_createNamedLine hlaid rfl rfl rfl hfirst
  have htwo := Run.extended_createNamedLine hone rfl rfl rfl hsecond
  rw [insert_empty_eq] at htwo
  exact ⟨j, bays, ends, hj, hends, htwo⟩

end LineCut

end Switchyard
