import Switchyard.Modification
import Switchyard.Proofs.LineCuts
import Switchyard.Proofs.Listings
import Switchyard.Proofs.Meetings

namespace Switchyard

open Std Network

variable {n : Network} {s t : Session} {a b : Branch} {bays : List LaidBay}

/-- A merge removes two lines that meet, prunes what they leave, and makes one
line of them. Where they met is cleared if it is fictitious. -/
theorem LineMerge.steps_eq_ok {c : LineMerge} (hok : c.steps s = .ok () t) :
    ∃ a b p u v w x y id, s.network.line? c.line1 = some a ∧ s.network.line? c.line2 = some b ∧
      meetingPoint? a b = some p ∧ u.network = s.network ∧
      Run.removeLines [a.id, b.id] u = .ok () v ∧
      Run.pruneLeft [(a.id, a.terminal p.side1), (b.id, b.terminal p.side2)] v = .ok () w ∧
      Run.createLine (mergedLine s.network.serial c.merged c.mergedName a b p.side1 p.side2) w =
        .ok id x ∧
      y.network = x.network ∧
      (if y.network.voltageLevels[p.voltageLevel]?.any (·.fictitious) then
        Run.removeVoltageLevelLeft p.voltageLevel else pure ()) y = .ok () t := by
  simp only [steps, bind_eq_ok, Run.line_eq_ok] at hok
  obtain ⟨a, _, ⟨ha, rfl⟩, b, _, ⟨hb, rfl⟩, hok⟩ := hok
  cases hmeet : meetingPoint? a b with
  | none => simp only [hmeet, Run.refuse_eq_ok] at hok
  | some p =>
    simp only [hmeet, bind_eq_ok, Run.network_eq_ok, Run.emit_eq_ok] at hok
    obtain ⟨_, s1, hids, _, _, ⟨rfl, rfl⟩, _, s2, hwarn1, _, s3, hwarn2, _, s4, hremove, _, s5,
      hprune, id, s6, hcreate, _, _, rfl, _, _, ⟨rfl, rfl⟩, hclear⟩ := hok
    cases Run.checkNewIds_eq_ok hids
    have hwarned : s3.network = s.network := by
      rw [Run.network_of_warnOfLostLimits hwarn2, Run.network_of_warnOfLostLimits hwarn1]
    exact ⟨a, b, p, s3, s4, s5, s6, _, id, ha, hb, hmeet, hwarned, hremove, hprune, hcreate,
      s6.network_tell _, hclear⟩

/-- Two lines that meet in a voltage level that is not fictitious are merged into
one, and their bays there are removed. -/
theorem LineMerge.extended_steps {c : LineMerge}
    (h : Extended ∅ (laid bays) {.branch b, .branch a} n s.network)
    (ha : s.network.line? c.line1 = some a) (hb : s.network.line? c.line2 = some b)
    (hab : b.terminal1.voltageLevel = a.terminal2.voltageLevel)
    (hserves : n.Serves bays [a.terminal2, b.terminal1])
    (hseats1 : n.Seats a.terminal1) (hseats2 : n.Seats b.terminal2)
    (hreal : ∀ v, n.shell? a.terminal2.voltageLevel = some v → v.fictitious = false)
    (hok : c.steps s = .ok () t) :
    ∃ owner, Extended ∅ ∅ {.branch ((mergedLine owner c.merged c.mergedName a b .two .one).branch
      a.terminal1 b.terminal2 c.merged)} n t.network := by
  obtain ⟨a', b', p, u, v, w, x, y, id, ha', hb', hmeet, hu, hremove, hprune, hcreate, hy,
    hclear⟩ := steps_eq_ok hok
  cases ha.symm.trans ha'
  cases hb.symm.trans hb'
  cases meetingPoint_of_halves hmeet hab
  have hne : a ≠ b := by
    rintro rfl
    obtain ⟨h1, h2, -⟩ := meetingPoint_spec hmeet
    rw [h1] at h2
    cases h2
  rw [← hu] at h
  have hends : ∀ l ∈ [a, b], n.Seats l.terminal1 ∧ n.Seats l.terminal2 := by
    simpa using ⟨⟨hseats1, hserves.seats List.mem_cons_self⟩,
      hserves.seats (List.mem_cons_of_mem _ List.mem_cons_self), hseats2⟩
  have hremoved := Run.extended_removeLines (l := [a, b]) h (fun x => by simp [or_comm])
    (by simp [hne]) hends hremove
  have hpruned := Run.extended_pruneLeft hremoved (fun _ _ => Set.notMem_empty _)
    (by exact hserves) hprune
  have hmerged := Run.extended_createNamedLine hpruned rfl rfl rfl hcreate
  rw [insert_empty_eq, ← hy] at hmerged
  -- The voltage level where the lines met is not fictitious, so that it stays.
  have hkept : ¬y.network.voltageLevels[a.terminal2.voltageLevel]?.any (·.fictitious) := by
    have hshell := hmerged.shell a.terminal2.voltageLevel
    cases hv : y.network.voltageLevels[a.terminal2.voltageLevel]? with
    | none => simp
    | some v =>
      rw [shell?, hv] at hshell
      have hv : v.fictitious = false := hreal v.shell hshell.symm
      simpa using hv
  rw [if_neg hkept] at hclear
  obtain ⟨-, rfl⟩ := pure_eq_ok.mp hclear
  exact ⟨_, hmerged⟩

/-- The merge of the halves that a cut makes, under the id of the line. -/
def LineCut.undo (c : LineCut) (name : Option String) : LineMerge :=
  ⟨c.line1, c.line2, c.line, name⟩

namespace Modification

/-- Merging the halves of a line again where it was cut gives the network before
the cut, but for the name, the parameters and the position of the line. -/
theorem listing_of_cut_undone (h : n.Coherent False) {c : LineCut}
    {naming naming' : NamingStrategy} {strict strict' : Bool} {name : Option String}
    (hreal : ∀ j v, n.junction c.target = .ok j → n.voltageLevels[j.voltageLevel]? = some v →
      v.fictitious = false)
    (hroom : n.RoomAt c.target 4)
    (hcut : ((lineCut c).apply n naming strict).Succeeds)
    (hundo : ((lineMerge (c.undo name)).apply ((lineCut c).apply n naming strict).network
      naming' strict').Succeeds) :
    ((lineMerge (c.undo name)).apply ((lineCut c).apply n naming strict).network
      naming' strict').network.listing =
      { n.listing with
        branches := n.listing.branches.map fun b =>
          if b.id = c.line then b.rejoined name c.percent else b } := by
  obtain ⟨t, hcut, ht⟩ := Run.ok_of_succeeds hcut
  obtain ⟨u, hundo, hu⟩ := Run.ok_of_succeeds hundo
  have hsteps := hcut
  simp only [LineCut.steps, bind_eq_ok, Run.line_eq_ok] at hsteps
  obtain ⟨line, _, ⟨hline, -⟩, -⟩ := hsteps
  obtain ⟨hkept, hkind⟩ := line?_eq_some_iff.mp hline
  have hid := h.line_id hline
  obtain ⟨m, hm, hseats1, hseats2⟩ := h.without_line hline
  obtain ⟨j, bays, ends, hj, hends, hhalves⟩ :=
    LineCut.extended_steps (s := ⟨n, []⟩) hm hseats1 hseats2 hline hcut
  have hmade := hends.serves hm.base (hm.room_base (Set.notMem_empty _) (hroom j hj))
  have hfar := hends.voltageLevel_first
  have hnear := hends.voltageLevel_second
  have hfirst := hhalves.line?_new
    (b := line.firstHalf c.line1 c.line1Name c.percent ends.first) (by simp) rfl
  have hsecond := hhalves.line?_new
    (b := line.secondHalf c.line2 c.line2Name c.percent ends.second) (by simp) rfl
  have hlevel : ∀ v, m.shell? ends.first.voltageLevel = some v → v.fictitious = false := by
    intro v hv
    rw [hfar, ← hm.shell] at hv
    obtain ⟨o, ho, rfl⟩ := Option.map_eq_some_iff.mp hv
    exact hreal j o hj ho
  have hnetwork : ((lineCut c).apply n naming strict).network = t.network := ht
  rw [hnetwork] at hundo hu
  obtain ⟨owner, hmerged⟩ := LineMerge.extended_steps (s := ⟨t.network, []⟩) hhalves hfirst hsecond
    (hnear.trans hfar.symm) hmade hseats1 hseats2 hlevel hundo
  have hundone : Extended ∅ ∅ {.branch (line.rejoined name c.percent)} m u.network :=
    branch_mergedLine hkind hid owner ▸ hmerged
  have hlisting := hm.listing_of_rebuilt (f := (·.rejoined name c.percent)) hundone rfl rfl rfl rfl
  rw [hnetwork, ← hid, ← hlisting]
  exact congrArg Network.listing hu

end Modification

end Switchyard
