import Switchyard.LineMerge
import Switchyard.Proofs.Meetings
import Switchyard.Proofs.Replacing

namespace Switchyard

open Std Network

variable {s t : Session} {l : List Branch} {a b tap : Branch} {vl id : String}

theorem TeePoint.left_eq (tee : TeePoint) :
    ∀ y ∈ [(a.id, a.terminal tee.side1), (b.id, b.terminal tee.side2), (tap.id, tap.terminal1),
      (tap.id, tap.terminal2)], ∃ x ∈ [a, b, tap], ∃ side, y.2 = x.terminal side := by
  simp only [List.forall_mem_cons, List.not_mem_nil, false_implies, implies_true, and_true]
  exact ⟨⟨a, by simp, tee.side1, rfl⟩, ⟨b, by simp, tee.side2, rfl⟩, ⟨tap, by simp, .one, rfl⟩,
    ⟨tap, by simp, .two, rfl⟩⟩

theorem Network.Coherent.mem_of_sideIn {n : Network} (h : n.Coherent False)
    (ha : n.Keeps id (.branch a)) {side : Side} (hside : a.sideIn vl = some side) :
    vl ∈ n.voltageLevels := by
  obtain ⟨_, hterminal⟩ := a.mem_terminals side
  have hvl : (a.terminal side).voltageLevel = vl := Branch.endOf_of_sideIn hside
  exact hvl ▸ h.mem_voltageLevels ha hterminal

/-- Two lines with their far ends in different voltage levels are merged unless the
new id is refused: the ends are free, and the id is, once the lines are gone. -/
theorem Run.spares_mergeLines (hs : s.network.Coherent False)
    (hl : ∀ b ∈ l, s.network.Keeps b.id (.branch b)) (hnodup : l.Nodup)
    {left : List (String × Terminal)} (hleft : ∀ y ∈ left, ∃ b ∈ l, ∃ side, y.2 = b.terminal side)
    (ha : a ∈ l) (hb : b ∈ l) {name : Option String} {side1 side2 : Side}
    (hends : a.endOf side1.opposite ≠ b.endOf side2.opposite) {k : String → Run Unit}
    (hk : ∀ given t, t.network.Coherent False →
      (∀ vl ∈ s.network.voltageLevels, vl ∈ t.network.voltageLevels) → (k given).Sure t) :
    Spares (do
      checkNewIds (l.map (·.id)) [] [id]
      let owner := (← network).serial
      warnOfLostLimits a side1
      warnOfLostLimits b side2
      removeLines (l.map (·.id))
      pruneLeft left
      let given ← createLine (mergedLine owner id name a b side1 side2)
      k given) s := by
  refine (spares_checkNewIds _ _ _).bind fun _ u hids => ?_
  have hid := (checkNewIds_spec hids).1 id (by simp)
  obtain rfl := checkNewIds_eq_ok hids
  refine Fails.network_bind ?_
  refine (sure_warnOfLostLimits a side1).fails.bind fun _ u hu => ?_
  have hu := network_of_warnOfLostLimits hu
  refine (sure_warnOfLostLimits b side2).fails.bind fun _ v hv => ?_
  have hv := (network_of_warnOfLostLimits hv).trans hu
  rw [← hv] at hs hl hid hk
  refine Fails.removeLines_bind (K := fun _ => False) hs hl hnodup hleft fun t ht _ => ?_
  have hfree : ∀ b ∈ l, ∀ side, t.network.Free (b.terminal side) := fun b hb =>
    ht.free_end ⟨b, hb, rfl⟩
  have hapart : (b.terminal side2.opposite).Apart (a.terminal side1.opposite) :=
    fun _ he => hends (congrArg Terminal.voltageLevel he.symm)
  have hnew : id ∉ t.network.index := by
    intro hm
    obtain ⟨e, he⟩ := mem_iff_exists_getElem?.mp hm
    exact ht.kind_of_index (fun hin => Branch.exists_connectable (hid hin)) (by simp) he
  refine (sure_createLine ht.coherent rfl rfl (hfree a ha _) (hfree b hb _) hapart
    (Or.inr hnew)).fails.bind fun given u hu => ?_
  have hu := replaced_createLine ht rfl rfl hu
  exact (hk given u hu.coherent fun vl hvl => hu.mem_voltageLevels hvl).fails

/-- Removing a tap line fails at a check, if at all. -/
theorem TapRemoval.spares_steps (c : TapRemoval) (hs : s.network.Coherent False) :
    c.steps.Spares s := by
  refine (Run.spares_line c.line1).bind fun a _ hline1 => ?_
  obtain ⟨ha, rfl⟩ := Run.line_eq_ok.mp hline1
  refine (Run.spares_line c.line2).bind fun b _ hline2 => ?_
  obtain ⟨hb, rfl⟩ := Run.line_eq_ok.mp hline2
  refine (Run.spares_line c.tap).bind fun tap _ hline3 => ?_
  obtain ⟨htap, rfl⟩ := Run.line_eq_ok.mp hline3
  cases htee : teePoint? a b tap with
  | none => exact Run.spares_refuse _
  | some tee =>
    obtain ⟨hside1, -, -, hends⟩ := teePoint_spec htee
    simp only [List.nodup_cons, List.mem_cons, not_or] at hends
    have hkept : ∀ x ∈ [a, b, tap], s.network.Keeps x.id (.branch x) := by
      simp [hs.keeps_line ha, hs.keeps_line hb, hs.keeps_line htap]
    have hvl := hs.mem_of_sideIn (hs.keeps_line ha) hside1
    refine Run.spares_mergeLines (l := [a, b, tap]) hs hkept (by simp [ne_of_teePoint htee])
      tee.left_eq (by simp) (by simp) hends.1.1 fun given t ht hlevels => Run.Fails.emit_bind ?_
    exact Run.sure_removeVoltageLevelLeft (s := t.tell _) ht (hlevels _ hvl)

theorem LineMerge.spares_steps (c : LineMerge) (hs : s.network.Coherent False) :
    c.steps.Spares s := by
  refine (Run.spares_line c.line1).bind fun a _ hline1 => ?_
  obtain ⟨ha, rfl⟩ := Run.line_eq_ok.mp hline1
  refine (Run.spares_line c.line2).bind fun b _ hline2 => ?_
  obtain ⟨hb, rfl⟩ := Run.line_eq_ok.mp hline2
  cases hmeeting : meetingPoint? a b with
  | none => exact Run.spares_refuse _
  | some meeting =>
    obtain ⟨hside1, hside2, -⟩ := meetingPoint_spec hmeeting
    have hends := ends_of_meetingPoint hmeeting
    have hkept : ∀ x ∈ [a, b], s.network.Keeps x.id (.branch x) := by
      simp [hs.keeps_line ha, hs.keeps_line hb]
    have hnodup : [a, b].Nodup := by simpa using Branch.ne_of_endOf hside1 hside2 hends
    have hleft : ∀ y ∈ [(a.id, a.terminal meeting.side1), (b.id, b.terminal meeting.side2)],
        ∃ x ∈ [a, b], ∃ side, y.2 = x.terminal side := by
      simp only [List.forall_mem_cons, List.not_mem_nil, false_implies, implies_true, and_true]
      exact ⟨⟨a, by simp, meeting.side1, rfl⟩, ⟨b, by simp, meeting.side2, rfl⟩⟩
    have hvl := hs.mem_of_sideIn (hs.keeps_line ha) hside1
    refine Run.spares_mergeLines (l := [a, b]) hs hkept hnodup hleft (by simp) (by simp) hends
      fun given t ht hlevels => Run.Fails.emit_bind ?_
    refine Run.Fails.network_bind (Run.Fails.ite (fun _ => ?_) fun _ => Run.fails_pure ())
    exact Run.sure_removeVoltageLevelLeft (s := t.tell _) ht (hlevels _ hvl)

end Switchyard
