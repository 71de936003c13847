import Switchyard.LineMerge
import Switchyard.Proofs.Blind
import Switchyard.Proofs.Meetings
import Switchyard.Proofs.Serving

namespace Switchyard

open Std Network

variable {n : Network} {s t : Session} {a b tap : Branch}

/-- Removes three lines that meet, and prunes what they leave. -/
def Run.removeTee (a b tap : Branch) (tee : TeePoint) : Run Unit := do
  removeLines [a.id, b.id, tap.id]
  pruneLeft
    [(a.id, a.terminal tee.side1), (b.id, b.terminal tee.side2), (tap.id, tap.terminal1),
      (tap.id, tap.terminal2)]

theorem Run.blind_removeTee (tee : TeePoint) : Blind (removeTee a b tap tee) :=
  .bind (blind_removeLines _) fun _ => blind_pruneLeft _

/-- What the lines of a tee point leave and what is pruned is where they met, or where
the third one led to. -/
theorem TeePoint.left_mem {tee : TeePoint} (h : teePoint? a b tap = some tee) :
    ∀ y ∈ [(a.id, a.terminal tee.side1), (b.id, b.terminal tee.side2), (tap.id, tap.terminal1),
      (tap.id, tap.terminal2)],
      y.2.voltageLevel ∈ ({tee.voltageLevel, tap.endOf tee.side3.opposite} : Set String) := by
  obtain ⟨hside1, hside2, hside3, -⟩ := teePoint_spec h
  have htap : ∀ vl ∈ tap.ends, vl = tee.voltageLevel ∨ vl = tap.endOf tee.side3.opposite :=
    fun vl hvl => by simpa using Branch.ends_subset hside3 hvl
  simp only [List.forall_mem_cons, List.not_mem_nil, false_implies, implies_true, and_true]
  exact ⟨Or.inl (Branch.endOf_of_sideIn hside1), Or.inl (Branch.endOf_of_sideIn hside2),
    htap _ (by simp [Branch.ends]), htap _ (by simp [Branch.ends])⟩

theorem TeePoint.far_not_mem {tee : TeePoint} (h : teePoint? a b tap = some tee) :
    a.endOf tee.side1.opposite ∉
        ({tee.voltageLevel, tap.endOf tee.side3.opposite} : Set String) ∧
      b.endOf tee.side2.opposite ∉
        ({tee.voltageLevel, tap.endOf tee.side3.opposite} : Set String) := by
  obtain ⟨hside1, hside2, -, hends⟩ := teePoint_spec h
  have hnear1 := Branch.endOf_opposite_ne hside1
  have hnear2 := Branch.endOf_opposite_ne hside2
  simp only [List.nodup_cons, List.mem_cons, List.not_mem_nil, or_false, not_or] at hends
  simp [hnear1, hnear2, hends.1.2, hends.2.1]

/-- The lines of a tee point are removed, and then nothing changes but where two
of them met and where the third one led to. -/
theorem Run.removeTee_spec (h : s.network.Coherent False) {tee : TeePoint}
    (ha : s.network.Keeps a.id (.branch a)) (hb : s.network.Keeps b.id (.branch b))
    (htap : s.network.Keeps tap.id (.branch tap)) (htee : teePoint? a b tap = some tee)
    (hok : removeTee a b tap tee s = .ok () t) :
    ∃ m, Extended ∅ ∅ {.branch tap, .branch b, .branch a} m s.network ∧
      (∀ l ∈ [a, b, tap], ∀ side, m.Seats (l.terminal side)) ∧ t.network.Coherent False ∧
      m.SameOff {tee.voltageLevel, tap.endOf tee.side3.opposite} t.network := by
  obtain ⟨_, u, hremove, hprune⟩ := bind_eq_ok.mp hok
  have hkept : ∀ l ∈ [a, b, tap], s.network.Keeps l.id (.branch l) := by simp [ha, hb, htap]
  have hnodup : [a, b, tap].Nodup := by simp [ne_of_teePoint htee]
  have hall := of_removeLines h hkept hnodup hremove
  have hseats : ∀ l ∈ [a, b, tap], ∀ side, u.network.Seats (l.terminal side) := by
    refine fun l hl side => (losesLines_of_removeLines h hkept hnodup hremove).seats fun hout => ?_
    obtain ⟨h1, h2⟩ := hout l hl
    cases side
    · exact absurd rfl h1
    · exact absurd rfl h2
    · exact absurd rfl h2
  obtain ⟨ht, hsame⟩ := sameOff_pruneLeft hall.base (TeePoint.left_mem htee) hprune
  have hlines : {c : Connectable | ∃ l ∈ [a, b, tap], c = .branch l} =
      {.branch tap, .branch b, .branch a} := by
    ext c
    simp only [Set.mem_ofPred_eq, Set.mem_insert_iff, Set.mem_singleton_iff, List.mem_cons]
    grind
  exact ⟨u.network, hlines ▸ hall, hseats, ht, hsame⟩

/-- A tap removal removes the lines of a tee point, merges two of them, and
clears the voltage level where they met. -/
theorem TapRemoval.steps_eq_ok {c : TapRemoval} (hok : c.steps s = .ok () t) :
    ∃ a b tap tee u v w x id, s.network.line? c.line1 = some a ∧ s.network.line? c.line2 = some b ∧
      s.network.line? c.tap = some tap ∧ teePoint? a b tap = some tee ∧
      u.network = s.network ∧ Run.removeTee a b tap tee u = .ok () v ∧
      Run.createLine (mergedLine s.network.serial c.merged c.mergedName a b tee.side1 tee.side2) v =
        .ok id w ∧
      x.network = w.network ∧ Run.removeVoltageLevelLeft tee.voltageLevel x = .ok () t := by
  simp only [steps, bind_eq_ok, Run.line_eq_ok] at hok
  obtain ⟨a, _, ⟨ha, rfl⟩, b, _, ⟨hb, rfl⟩, tap, _, ⟨htap, rfl⟩, hok⟩ := hok
  cases htee : teePoint? a b tap with
  | none => simp only [htee, Run.refuse_eq_ok] at hok
  | some tee =>
    simp only [htee, bind_eq_ok, Run.network_eq_ok, Run.emit_eq_ok] at hok
    obtain ⟨_, s1, hids, _, _, ⟨rfl, rfl⟩, _, s2, hwarn1, _, s3, hwarn2, _, s4, hremove, _, s5,
      hprune, id, s6, hcreate, _, _, rfl, hclear⟩ := hok
    cases Run.checkNewIds_eq_ok hids
    have hwarned : s3.network = s.network := by
      rw [Run.network_of_warnOfLostLimits hwarn2, Run.network_of_warnOfLostLimits hwarn1]
    have hremoved : Run.removeTee a b tap tee s3 = .ok () s5 :=
      bind_eq_ok.mpr ⟨(), s4, hremove, hprune⟩
    exact ⟨a, b, tap, tee, s3, s5, s6, _, id, ha, hb, htap, htee, hwarned, hremoved, hcreate,
      s6.network_tell _, hclear⟩

end Switchyard
