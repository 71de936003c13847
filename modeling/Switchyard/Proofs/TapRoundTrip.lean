import Switchyard.Modification
import Switchyard.Proofs.LineTaps
import Switchyard.Proofs.Listings
import Switchyard.Proofs.TeeRemovals

namespace Switchyard

open Std Network

variable {n m : Network} {s t : Session} {a b tap : Branch} {bay : LaidBay} {vl : String}
  {node1 node2 node3 : Node}

/-- The lines of a tee point leave the open voltage level, and the bay of the
third one is removed. -/
theorem Run.extended_removeTee {tee : TeePoint} (hside1 : tee.side1 = .two)
    (hside2 : tee.side2 = .one)
    (h : Extended {vl} (laid [bay]) {.branch tap, .branch b, .branch a} m s.network)
    (ha : a.terminal2 = .atNode vl node1) (hb : b.terminal1 = .atNode vl node2)
    (htap : tap.terminal1 = .atNode vl node3) (hserves : m.Serves [bay] [tap.terminal2])
    (hbay : bay.voltageLevel ≠ vl) (hseats1 : m.Seats a.terminal1) (hseats2 : m.Seats b.terminal2)
    (hseats : ∀ node, m.Seats (.atNode vl node)) (hne : a ≠ b ∧ a ≠ tap ∧ b ≠ tap)
    (hok : removeTee a b tap tee s = .ok () t) : Extended {vl} ∅ ∅ m t.network := by
  obtain ⟨_, s1, hremove, hprune⟩ := bind_eq_ok.mp hok
  have hlines : ∀ x, x ∈ ({.branch tap, .branch b, .branch a} : Set Connectable) ↔
      ∃ l ∈ [a, b, tap], x = .branch l := by
    intro x
    simp only [Set.mem_insert_iff, Set.mem_singleton_iff, List.mem_cons]
    grind
  have hends : ∀ l ∈ [a, b, tap], m.Seats l.terminal1 ∧ m.Seats l.terminal2 := by
    simpa [ha, hb, htap] using ⟨⟨hseats1, hseats node1⟩, ⟨hseats node2, hseats2⟩, hseats node3,
      hserves.seats List.mem_cons_self⟩
  have h3 := extended_removeLines (l := [a, b, tap]) h hlines (by simp [hne]) hends hremove
  simp only [hside1, hside2, Branch.terminal, ha, hb, htap, pruneLeft_node_eq_ok] at hprune
  obtain ⟨u1, hprune1, u2, hprune2, u3, hprune3, hprune⟩ := hprune
  have hin : vl ∈ ({vl} : Set String) := rfl
  have h4 := extended_pruneBay_off h3 hin hprune1
  have h5 := extended_pruneBay_off h4 hin hprune2
  have h6 := extended_pruneBay_off h5 hin hprune3
  exact extended_pruneLeft h6 (by simpa using hbay) (by exact hserves) hprune

/-- Where two halves and a tap line meet in an open voltage level, removing the
tap makes the halves one line and closes the voltage level. -/
theorem TapRemoval.extended_steps {c : TapRemoval} (hopens : n.Opens m vl)
    (h : Extended {vl} (laid [bay]) {.branch tap, .branch b, .branch a} m s.network)
    (ha : s.network.line? c.line1 = some a) (hb : s.network.line? c.line2 = some b)
    (ha2 : a.terminal2 = .atNode vl node1) (hb1 : b.terminal1 = .atNode vl node2)
    (htap1 : tap.terminal1 = .atNode vl node3) (hserves : m.Serves [bay] [tap.terminal2])
    (hbay : bay.voltageLevel ≠ vl) (hout1 : a.terminal1.voltageLevel ≠ vl)
    (hout2 : b.terminal2.voltageLevel ≠ vl) (hseats1 : m.Seats a.terminal1)
    (hseats2 : m.Seats b.terminal2) (hok : c.steps s = .ok () t) :
    ∃ owner, Extended ∅ ∅ {.branch ((mergedLine owner c.merged c.mergedName a b .two .one).branch
      a.terminal1 b.terminal2 c.merged)} n t.network := by
  obtain ⟨a', b', third, tee, u, v, w, x, id, ha', hb', hthird, htee, hu, hremove, hcreate, hx,
    hclear⟩ := steps_eq_ok hok
  rw [ha] at ha'
  rw [hb] at hb'
  cases ha'
  cases hb'
  have hne := ne_of_teePoint htee
  have hvl : a.terminal2.voltageLevel = vl := congrArg Terminal.voltageLevel ha2
  have hvl' : b.terminal1.voltageLevel = vl := congrArg Terminal.voltageLevel hb1
  obtain ⟨side, rfl⟩ := teePoint_of_halves htee (hvl'.trans hvl.symm)
  -- The third line ends in the open voltage level, where there was none before.
  have heq : third = tap := by
    obtain ⟨-, -, hside, -⟩ := teePoint_spec htee
    have hin := Branch.isIn_iff.mpr (Branch.mem_ends_of_sideIn hside)
    rw [hvl] at hin
    rcases (h.keeps_iff _ _).mp (line?_eq_some_iff.mp hthird).1 with hold | ⟨-, hnew⟩
    · have hout := equipmentIn_eq_nil_iff.mp hopens.free _ _ hold rfl
      rw [hin] at hout
      cases hout
    · simp only [Set.mem_insert_iff, Set.mem_singleton_iff, Connectable.branch.injEq] at hnew
      rcases hnew with he | he | he
      · exact he
      · exact absurd he.symm hne.2.2
      · exact absurd he.symm hne.2.1
  subst heq
  rw [← hu] at h
  have hremoved := Run.extended_removeTee rfl rfl h ha2 hb1 htap1 hserves hbay hseats1 hseats2
    hopens.seats_atNode hne hremove
  have hmerged := Run.extended_createNamedLine hremoved rfl rfl rfl hcreate
  rw [insert_empty_eq, ← hx] at hmerged
  obtain ⟨hnetwork, hpresent⟩ := Run.removeVoltageLevelLeft_eq_ok hmerged.coherent hclear
  have hapart : ∀ x ∈ ({.branch ((mergedLine s.network.serial c.merged c.mergedName a b .two
      .one).branch a.terminal1 b.terminal2 c.merged)} : Set Connectable), x.isIn vl = false := by
    rintro x rfl
    exact Branch.isIn_eq_false hout1 hout2
  rw [hvl] at hnetwork hpresent
  have hcleared := hmerged.cleared hapart (fun x hx => ⟨hx, hopens.free⟩) hpresent
  rw [hopens.cleared, ← hnetwork] at hcleared
  exact ⟨s.network.serial, hcleared⟩

/-- The removal of a line that meets the halves that a tap makes, which become one
line under the id of the line that they were. -/
def LineTap.undo (c : LineTap) (third : String) (name : Option String) : TapRemoval :=
  ⟨c.line1, c.line2, third, c.line, name⟩

namespace Modification

/-- Removing the line that taps another one gives the network before the tap, but
for the name, the parameters and the position of the line that was tapped. -/
theorem listing_of_tap_undone (h : n.Coherent False) {c : LineTap}
    {naming naming' : NamingStrategy} {strict strict' : Bool} {third : String}
    {name : Option String} {b : BusbarSection} (hb : n.busbarSections[c.target]? = some b)
    (hroom : n.Room b.voltageLevel 2) (htap : ((lineTap c).apply n naming strict).Succeeds)
    (hundo : ((tapRemoval (c.undo third name)).apply ((lineTap c).apply n naming strict).network
      naming' strict').Succeeds) :
    ((tapRemoval (c.undo third name)).apply ((lineTap c).apply n naming strict).network
      naming' strict').network.listing =
      { n.listing with
        branches := n.listing.branches.map fun b =>
          if b.id = c.line then b.rejoined name c.percent else b } := by
  obtain ⟨t, htap, ht⟩ := Run.ok_of_succeeds htap
  obtain ⟨u, hundo, hu⟩ := Run.ok_of_succeeds hundo
  have hnetwork : ((lineTap c).apply n naming strict).network = t.network := ht
  rw [hnetwork] at hundo hu
  have hsteps := htap
  simp only [LineTap.steps, bind_eq_ok, Run.line_eq_ok] at hsteps
  obtain ⟨line, _, ⟨hline, -⟩, -⟩ := hsteps
  obtain ⟨hkept, hkind⟩ := line?_eq_some_iff.mp hline
  have hid := h.line_id hline
  obtain ⟨m, hm, hseats1, hseats2⟩ := h.without_line hline
  obtain ⟨k, bay, tap, hopens, htap1, hserves, hbay, hhalves⟩ :=
    LineTap.extended_steps (s := ⟨n, []⟩) hm hseats1 hseats2 hline hb hroom htap
  have hfirst := hhalves.line?_new
    (b := line.firstHalf c.line1 c.line1Name c.percent (.atNode c.voltageLevel 0)) (by simp) rfl
  have hsecond := hhalves.line?_new
    (b := line.secondHalf c.line2 c.line2Name c.percent (.atNode c.voltageLevel 2)) (by simp) rfl
  have hout : (Connectable.branch line).isIn c.voltageLevel = false := by
    refine h.isIn_eq_false (fun hin => hopens.absent ?_) hkept
    exact (mem_voltageLevels_of_shell hm.shell).mp hin
  simp only [Connectable.isIn, Connectable.terminals, List.any_cons, List.any_nil, Bool.or_false,
    Bool.or_eq_false_iff, beq_eq_false_iff_ne] at hout
  obtain ⟨owner, hmerged⟩ := TapRemoval.extended_steps (s := ⟨t.network, []⟩) hopens hhalves
    hfirst hsecond rfl rfl htap1 hserves hbay hout.1 hout.2 (hopens.seats hseats1)
    (hopens.seats hseats2) hundo
  have hundone : Extended ∅ ∅ {.branch (line.rejoined name c.percent)} m u.network :=
    branch_mergedLine hkind hid owner ▸ hmerged
  have hlisting := hm.listing_of_rebuilt (f := (·.rejoined name c.percent)) hundone rfl rfl rfl rfl
  rw [hnetwork, ← hid, ← hlisting]
  exact congrArg Network.listing hu

end Modification

end Switchyard
