import Switchyard.TeeReplacement
import Switchyard.Proofs.TeeRemovals

namespace Switchyard

open Std Network

variable {s t : Session} {a b tap : Branch} {tee : TeePoint}

namespace Run

/-- Once the lines of a tee point are removed, the far ends of the first two are
where lines can be, and the busbar sections are all there. -/
theorem seats_of_removeTee (h : s.network.Coherent False)
    (ha : s.network.Keeps a.id (.branch a)) (hb : s.network.Keeps b.id (.branch b))
    (htap : s.network.Keeps tap.id (.branch tap)) (htee : teePoint? a b tap = some tee)
    (hok : removeTee a b tap tee s = .ok () t) :
    t.network.Coherent False ∧ t.network.Seats (a.terminal tee.side1.opposite) ∧
      t.network.Seats (b.terminal tee.side2.opposite) ∧
      t.network.busbarSections = s.network.busbarSections := by
  obtain ⟨m, hm, hseats, ht, hsame⟩ := removeTee_spec h ha hb htap htee hok
  obtain ⟨hfar1, hfar2⟩ := TeePoint.far_not_mem htee
  refine ⟨ht, hsame.seats hfar1 (hseats a (by simp) _), hsame.seats hfar2 (hseats b (by simp) _),
    ?_⟩
  rw [hm.busbarSections_eq]
  apply ExtTreeMap.ext_getElem?
  intro id
  exact Option.ext fun x => hsame.keeps_iff id (.busbarSection x)

end Run

namespace TeeReplacement

variable {c : TeeReplacement} {naming : NamingStrategy}

/-- A replacement removes the lines of a tee point, makes two new lines, and
clears the voltage level where the old ones met. -/
theorem steps_eq_ok (hok : c.steps naming s = .ok () t) :
    ∃ a b tap tee j v ends w id1 x id2 y z, s.network.line? c.line1 = some a ∧
      s.network.line? c.line2 = some b ∧ s.network.line? c.tap = some tap ∧
      teePoint? a b tap = some tee ∧ s.network.junction c.target = .ok j ∧
      j.voltageLevel = tap.endOf tee.side3.opposite ∧
      Run.removeTee a b tap tee s = .ok () v ∧
      createTargets naming c.newLine1 c.newLine2 j v = .ok ends w ∧
      Run.createLine (c.firstLine s.network.serial a tap tee.side1 ends.first) w = .ok id1 x ∧
      Run.createLine (c.secondLine s.network.serial b tap tee.side2 ends.second) x = .ok id2 y ∧
      Run.removeVoltageLevelLeft tee.voltageLevel y = .ok () z ∧ t.network = z.network := by
  simp only [steps, bind_eq_ok, Run.line_eq_ok] at hok
  obtain ⟨a, _, ⟨ha, rfl⟩, b, _, ⟨hb, rfl⟩, tap, _, ⟨htap, rfl⟩, hok⟩ := hok
  cases htee : teePoint? a b tap with
  | none => simp only [htee, Run.refuse_eq_ok] at hok
  | some tee =>
    simp only [htee, bind_eq_ok, Run.junction_eq_ok] at hok
    obtain ⟨j, _, ⟨hj, rfl⟩, hok⟩ := hok
    split at hok
    · simp only [bind_eq_ok, Run.refuse_eq_ok, false_and, exists_false] at hok
    next hvl =>
      simp only [bind_eq_ok, Run.network_eq_ok, Run.emit_eq_ok] at hok
      obtain ⟨_, s1, hids, _, _, ⟨rfl, rfl⟩, _, s2, hremove, _, s3, hprune, ends, s4, htargets,
        id1, s5, hfirst, id2, s6, hsecond, _, s7, hclear, rfl⟩ := hok
      cases Run.checkNewIds_eq_ok hids
      have hremoved : Run.removeTee a b tap tee s = .ok () s3 :=
        bind_eq_ok.mpr ⟨(), s2, hremove, hprune⟩
      exact ⟨a, b, tap, tee, j, s3, ends, s4, id1, s5, id2, s6, s7, ha, hb, htap, htee, hj,
        not_not.mp hvl, hremoved, htargets, hfirst, hsecond, hclear, s7.network_tell _⟩

/-- The new lines end in two bays at the busbar section, on the next free nodes of
what the removal leaves. -/
theorem extended_steps (h : s.network.Coherent False) {target : BusbarSection}
    (htarget : s.network.busbarSections[c.target]? = some target)
    (hok : c.steps naming s = .ok () t) :
    ∃ a b tap tee v w bays, s.network.line? c.line1 = some a ∧ s.network.line? c.line2 = some b ∧
      s.network.line? c.tap = some tap ∧ teePoint? a b tap = some tee ∧
      target.voltageLevel = tap.endOf tee.side3.opposite ∧
      Run.removeTee a b tap tee s = .ok () v ∧
      v.network.busbarSections[c.target]? = some target ∧
      v.network.inside? target.voltageLevel = some (.nodeBreaker w) ∧
      bays.map (·.toBayPlan) =
        v.network.twoBays target.voltageLevel ⟨c.target, target.node⟩ w.nextNode ∧
      Extended ∅ (laid bays)
        {.branch ((c.secondLine s.network.serial b tap tee.side2
            (.atNode target.voltageLevel (w.nextNode + 3))).branch
            (.atNode target.voltageLevel (w.nextNode + 3)) (b.terminal tee.side2.opposite)
            c.newLine2),
          .branch ((c.firstLine s.network.serial a tap tee.side1
            (.atNode target.voltageLevel w.nextNode)).branch
            (a.terminal tee.side1.opposite) (.atNode target.voltageLevel w.nextNode)
            c.newLine1)}
        (v.network.cleared tee.voltageLevel) t.network := by
  obtain ⟨a, b, tap, tee, j, v, ends, s1, id1, s2, id2, s3, s4, ha, hb, htap, htee, hj, hvl,
    hremove, htargets, hfirst, hsecond, hclear, ht⟩ := steps_eq_ok hok
  rw [h.junction_of_busbarSection htarget] at hj
  cases hj
  have hvl : target.voltageLevel = tap.endOf tee.side3.opposite := hvl
  obtain ⟨hv, -, -, hbusbars⟩ := Run.seats_of_removeTee h (h.keeps_line ha) (h.keeps_line hb)
    (h.keeps_line htap) htee hremove
  obtain ⟨hside1, hside2, hside3, -⟩ := teePoint_spec htee
  rw [← hbusbars] at htarget
  have hr : v.network.HasRail target.voltageLevel ⟨c.target, target.node⟩ :=
    ⟨target, htarget, rfl, rfl⟩
  obtain ⟨w, hw⟩ := hr.wiring hv
  obtain ⟨rfl, bays, hplans, hlaid⟩ := Run.extended_createTwoBays (Extended.refl hv)
    (Set.notMem_empty _) hw htargets
  have hone := Run.extended_createNamedLine hlaid rfl rfl rfl hfirst
  have htwo := Run.extended_createNamedLine hone rfl rfl rfl hsecond
  rw [insert_empty_eq] at htwo
  obtain ⟨hcleared, hpresent⟩ := Run.removeVoltageLevelLeft_eq_ok htwo.coherent hclear
  have htarget' : target.voltageLevel ≠ tee.voltageLevel := hvl ▸ Branch.endOf_opposite_ne hside3
  refine ⟨a, b, tap, tee, v, w, bays, ha, hb, htap, htee, hvl, hremove, htarget, hw, hplans, ?_⟩
  rw [ht, hcleared]
  refine htwo.cleared ?_ (fun x hx => absurd hx (Set.notMem_empty x)) hpresent
  rintro x (rfl | rfl)
  · exact Branch.isIn_eq_false htarget' (Branch.endOf_opposite_ne hside2)
  · exact Branch.isIn_eq_false (Branch.endOf_opposite_ne hside1) htarget'

end TeeReplacement

theorem TapRemoval.extended_cleared {c : TapRemoval} (h : s.network.Coherent False)
    (hok : c.steps s = .ok () t) :
    ∃ a b tap tee u v, s.network.line? c.line1 = some a ∧ s.network.line? c.line2 = some b ∧
      s.network.line? c.tap = some tap ∧ teePoint? a b tap = some tee ∧
      u.network = s.network ∧ Run.removeTee a b tap tee u = .ok () v ∧
      Extended ∅ ∅ {.branch ((mergedLine s.network.serial c.merged c.mergedName a b tee.side1
          tee.side2).branch (a.terminal tee.side1.opposite) (b.terminal tee.side2.opposite)
          c.merged)}
        (v.network.cleared tee.voltageLevel) t.network := by
  obtain ⟨a, b, tap, tee, u, v, w, x, id, ha, hb, htap, htee, hu, hremove, hcreate, hx, hclear⟩ :=
    steps_eq_ok hok
  have h' : u.network.Coherent False := hu ▸ h
  rw [← hu] at ha hb htap
  obtain ⟨hv, -⟩ := Run.seats_of_removeTee h' (h'.keeps_line ha) (h'.keeps_line hb)
    (h'.keeps_line htap) htee hremove
  obtain ⟨hside1, hside2, -, -⟩ := teePoint_spec htee
  have hleft : Extended ∅ ∅ ∅ v.network v.network := .refl hv
  have hmerged := Run.extended_createNamedLine hleft rfl rfl rfl hcreate
  rw [insert_empty_eq, ← hx] at hmerged
  obtain ⟨hcleared, hpresent⟩ := Run.removeVoltageLevelLeft_eq_ok hmerged.coherent hclear
  rw [hu] at ha hb htap
  refine ⟨a, b, tap, tee, u, v, ha, hb, htap, htee, hu, hremove, ?_⟩
  rw [hcleared]
  refine hmerged.cleared ?_ (fun x hx => absurd hx (Set.notMem_empty x)) hpresent
  rintro x rfl
  exact Branch.isIn_eq_false (Branch.endOf_opposite_ne hside1) (Branch.endOf_opposite_ne hside2)

end Switchyard
