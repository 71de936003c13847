import Switchyard.LineCut
import Switchyard.LineTap
import Switchyard.TeeReplacement
import Switchyard.Proofs.Replacing

namespace Switchyard

open Std Network

variable {K : ObjectKind → Prop} {C D : Set Connectable} {n m : Network} {s t : Session}
  {naming : NamingStrategy} {vl id base base1 base2 : String} {j : Junction}

/-- The bus or the busbar section of a junction is there. -/
def Junction.Stands (n : Network) : Junction → Prop
  | .bus id vl => n.HasBus vl id
  | .busbarSection id vl node => n.HasRail vl ⟨id, node⟩

namespace Network

theorem Coherent.stands (h : n.Coherent False) (hj : n.junction id = .ok j) : j.Stands n := by
  cases j with
  | bus x vl => exact h.hasBus_of_junction hj
  | busbarSection x vl node => exact h.hasRail_of_junction hj

theorem Replaced.stands (h : Replaced K C D n m) (hj : j.Stands n) : j.Stands m := by
  cases j with
  | bus x vl => exact h.hasBus hj
  | busbarSection x vl node => exact h.hasRail_iff.mpr hj

/-- A terminal at a junction: at a bus, or at a node that was not in use. -/
structure Fresh (n : Network) (j : Junction) (x : Terminal) : Prop where
  voltageLevel : x.voltageLevel = j.voltageLevel
  unplaced : ∀ node, x.node? = some node →
    (∃ id vl k, j = .busbarSection id vl k) ∧ n.Unplaced j.voltageLevel node

end Network

namespace Run

theorem createTwoBays_ends {rail : Rail} {ends : Halves Terminal}
    (hok : createTwoBays naming vl rail base1 base2 s = .ok ends t) :
    ∃ w, s.network.inside? vl = some (.nodeBreaker w) ∧
      ends = ⟨.atNode vl w.nextNode, .atNode vl (w.nextNode + 3)⟩ := by
  simp only [createTwoBays, bind_eq_ok, nextNode_eq_ok, pure_eq_ok] at hok
  obtain ⟨_, _, ⟨w, hw, rfl, rfl⟩, _, _, -, _, _, -, rfl, -⟩ := hok
  exact ⟨w, hw, rfl⟩

theorem createBusBay_end {bus : String} (hs : s.network.Coherent False) {x : Terminal}
    (hok : createBusBay naming vl bus base s = .ok x t) :
    x.voltageLevel = vl ∧ x.node? = none ∧ t.network.Free x := by
  obtain ⟨id, u, hcreate, hok⟩ := bind_eq_ok.mp hok
  obtain ⟨_, v, htold, hok⟩ := bind_eq_ok.mp hok
  obtain ⟨_, w, hswitch, hok⟩ := bind_eq_ok.mp hok
  obtain ⟨rfl, rfl⟩ := pure_eq_ok.mp hok
  cases emit_eq_ok.mp htold
  obtain ⟨k, hk, rfl⟩ := edit_eq_ok.mp hcreate
  have hcoherent : k.Coherent False :=
    (Change.addBus _).coherent_of_ok (Edit.after_map _ _) hs hk
  have hmade : (createBusSwitch vl (naming.switch base) id bus).Rewires (· = .switch)
      (Session.tell ⟨k, s.events⟩ (.busCreated id)) := makes_createBusSwitch rfl
  obtain ⟨-, hfit⟩ := hmade.refitted hcoherent hswitch
  exact ⟨rfl, rfl, hfit.hasBus _ _ (BusDraft.hasBus_of_create hk).1⟩

/-- New ends of two lines at a junction of a network, once they are made ready. -/
structure NewEnds (n : Network) (j : Junction) (m : Network) (ends : Halves Terminal) :
    Prop where
  fresh : ∀ x ∈ [ends.first, ends.second], n.Fresh j x
  free : ∀ x ∈ [ends.first, ends.second], m.Free x
  apart : ends.second.Apart ends.first

theorem newEnds_createTwoBays {rail : Rail} (hs : s.network.Coherent False)
    (hroom : s.network.Room vl 4) {ends : Halves Terminal}
    (hok : createTwoBays naming vl rail base1 base2 s = .ok ends t) :
    NewEnds s.network (.busbarSection rail.id vl rail.node) t.network ends := by
  have hmade : (createTwoBays naming vl rail base1 base2).Rewires (· = .switch) s :=
    rewires_createTwoBays (K := (· = .switch)) rfl
  obtain ⟨ht, hfit⟩ := hmade.refitted hs hok
  obtain ⟨w, hw, rfl⟩ := createTwoBays_ends hok
  have hfirst := hroom.unplaced_nextNode hw
  have hsecond : s.network.Unplaced vl (w.nextNode + 3) := hroom.unplaced (i := 3) (by decide) hw
  have hfree : ∀ node, s.network.Unplaced vl node → t.network.Free (.atNode vl node) :=
    fun node hnew => hfit.stays_free hs ht (hs.free_of_unplaced hw hnew) (by simp)
  have hfresh : ∀ node, s.network.Unplaced vl node →
      s.network.Fresh (.busbarSection rail.id vl rail.node) (.atNode vl node) := by
    intro node hnew
    refine ⟨rfl, fun k hk => ⟨⟨_, _, _, rfl⟩, ?_⟩⟩
    cases hk
    exact hnew
  refine ⟨?_, ?_, fun _ he => ?_⟩
  · simpa using ⟨hfresh _ hfirst, hfresh _ hsecond⟩
  · simpa using ⟨hfree _ hfirst, hfree _ hsecond⟩
  · simp [Terminal.atNode] at he

theorem fresh_of_bus {x : Terminal} (hvl : x.voltageLevel = vl) (hx : x.node? = none) :
    n.Fresh (.bus id vl) x where
  voltageLevel := hvl
  unplaced := by simp [hx]

end Run

namespace LineCut

theorem rewires_createTargets (hK : K .switch) (j : Junction) :
    (createTargets naming base1 base2 j).Rewires K s := by
  cases j with
  | bus id vl => exact Run.makes_pure _
  | busbarSection id vl node => exact Run.rewires_createTwoBays hK

theorem sure_createTargets (hs : s.network.Coherent False) (hj : j.Stands s.network)
    (hroom : s.network.Room j.voltageLevel 4) : (createTargets naming base1 base2 j).Sure s := by
  cases j with
  | bus id vl => exact Run.fails_pure _
  | busbarSection id vl node => exact Run.sure_createTwoBays hs hj hroom

theorem newEnds_createTargets (hs : s.network.Coherent False) (hj : j.Stands s.network)
    (hroom : s.network.Room j.voltageLevel 4) {ends : Halves Terminal}
    (hok : createTargets naming base1 base2 j s = .ok ends t) :
    Run.NewEnds s.network j t.network ends := by
  cases j with
  | bus id vl =>
    obtain ⟨rfl, rfl⟩ := pure_eq_ok.mp hok
    have hfresh : s.network.Fresh (.bus id vl) (.atBus vl id) := Run.fresh_of_bus rfl rfl
    have hfree : s.network.Free (.atBus vl id) := hj
    exact ⟨by simpa using hfresh, by simpa using hfree, fun he => by cases he⟩
  | busbarSection id vl node => exact Run.newEnds_createTwoBays hs hroom hok

end LineCut

namespace TeeReplacement

theorem rewires_createTargets (hK : K .switch) (hbus : K .bus) (j : Junction) :
    (createTargets naming base1 base2 j).Rewires K s := by
  cases j with
  | bus id vl =>
    exact (Run.rewires_createBusBay hK hbus).bind fun _ _ =>
      (Run.rewires_createBusBay hK hbus).bind fun _ _ => Run.makes_pure _
  | busbarSection id vl node => exact Run.rewires_createTwoBays hK

theorem sure_createTargets (hs : s.network.Coherent False) (hj : j.Stands s.network)
    (hroom : s.network.Room j.voltageLevel 4) : (createTargets naming base1 base2 j).Sure s := by
  cases j with
  | bus id vl =>
    refine (Run.sure_createBusBay hj).bind fun _ t ht => ?_
    have hmade : (Run.createBusBay naming vl id base1).Rewires (fun _ => True) s :=
      Run.rewires_createBusBay trivial trivial
    obtain ⟨-, hfit⟩ := hmade.refitted hs ht
    exact (Run.sure_createBusBay (hfit.hasBus vl id hj)).bind fun _ _ _ => Run.fails_pure _
  | busbarSection id vl node => exact Run.sure_createTwoBays hs hj hroom

theorem newEnds_createTargets (hs : s.network.Coherent False)
    (hroom : s.network.Room j.voltageLevel 4) {ends : Halves Terminal}
    (hok : createTargets naming base1 base2 j s = .ok ends t) :
    Run.NewEnds s.network j t.network ends := by
  cases j with
  | bus id vl =>
    obtain ⟨first, u, hfirst, hok⟩ := bind_eq_ok.mp hok
    obtain ⟨second, v, hsecond, hok⟩ := bind_eq_ok.mp hok
    obtain ⟨rfl, rfl⟩ := pure_eq_ok.mp hok
    have hmade : ∀ {s base}, (Run.createBusBay naming vl id base).Rewires (fun _ => True) s :=
      Run.rewires_createBusBay trivial trivial
    obtain ⟨hu, -⟩ := hmade.refitted hs hfirst
    obtain ⟨hv, hfit⟩ := hmade.refitted hu hsecond
    obtain ⟨hvl1, hnode1, hfree1⟩ := Run.createBusBay_end hs hfirst
    obtain ⟨hvl2, hnode2, hfree2⟩ := Run.createBusBay_end hu hsecond
    have hkept : v.network.Free first := hfit.stays_free hu hv hfree1 (by simp)
    refine ⟨?_, by simpa using ⟨hkept, hfree2⟩, by simp [Terminal.Apart, hnode2]⟩
    simpa using ⟨Run.fresh_of_bus hvl1 hnode1, Run.fresh_of_bus hvl2 hnode2⟩
  | busbarSection id vl node => exact Run.newEnds_createTwoBays hs hroom hok

end TeeReplacement

namespace LineTap

theorem rewires_createTarget (hK : K .switch) (hbus : K .bus) (j : Junction) :
    (createTarget naming base j).Rewires K s := by
  cases j with
  | bus id vl => exact Run.rewires_createBusBay hK hbus
  | busbarSection id vl node =>
    exact (Run.makes_nextNode vl).bind fun _ _ => (Run.rewires_createLineBay hK).bind fun _ _ =>
      Run.makes_pure _

theorem sure_createTarget (hs : s.network.Coherent False) (hj : j.Stands s.network)
    (hroom : s.network.Room j.voltageLevel 2) : (createTarget naming base j).Sure s := by
  cases j with
  | bus id vl => exact Run.sure_createBusBay hj
  | busbarSection id vl node =>
    have hr : s.network.HasRail vl ⟨id, node⟩ := hj
    obtain ⟨w, hw⟩ := hr.wiring hs
    refine (Run.sure_nextNode hw).bind fun first u hfirst => ?_
    obtain ⟨w', hw', rfl, rfl⟩ := Run.nextNode_eq_ok.mp hfirst
    refine (Run.sure_createLineBay hs hr (by simp) fun r hr => ?_).bind fun _ _ _ =>
      Run.fails_pure _
    exact hs.ne_rail_of_unplaced (hroom.unplaced (i := 1) (by decide) hw') hr

theorem createTarget_end (hs : s.network.Coherent False)
    (hroom : s.network.Room j.voltageLevel 2) {far : Terminal}
    (hok : createTarget naming base j s = .ok far t) :
    far.voltageLevel = j.voltageLevel ∧ t.network.Free far := by
  cases j with
  | bus id vl =>
    obtain ⟨hvl, -, hfree⟩ := Run.createBusBay_end hs hok
    exact ⟨hvl, hfree⟩
  | busbarSection id vl node =>
    simp only [createTarget, bind_eq_ok, Run.nextNode_eq_ok, pure_eq_ok] at hok
    obtain ⟨first, _, ⟨w, hw, rfl, rfl⟩, _, u, hbay, rfl, rfl⟩ := hok
    have hmade : (Run.createLineBay naming vl ⟨id, node⟩ base
        ⟨w.nextNode, w.nextNode + 1⟩).Rewires (· = .switch) s :=
      Run.rewires_createLineBay (K := (· = .switch)) rfl
    obtain ⟨hu, hfit⟩ := hmade.refitted hs hbay
    have hnew := hroom.unplaced_nextNode hw
    exact ⟨rfl, hfit.stays_free hs hu (hs.free_of_unplaced hw hnew) (by simp)⟩

end LineTap

end Switchyard
