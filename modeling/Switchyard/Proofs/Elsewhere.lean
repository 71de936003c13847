import Switchyard.Proofs.Extended
import Switchyard.Proofs.Pruning
import Switchyard.Proofs.Success

namespace Switchyard

open Std Network

namespace Network.SameOff

variable {X : Set String} {n m k : Network} {vl : String}

theorem refl (n : Network) : n.SameOff X n :=
  ⟨fun _ _ => rfl, fun _ => rfl, rfl, fun _ _ => Iff.rfl⟩

theorem trans (h : n.SameOff X m) (h' : m.SameOff X k) : n.SameOff X k where
  level := fun vl hvl => (h'.level vl hvl).trans (h.level vl hvl)
  shell := fun vl => (h'.shell vl).trans (h.shell vl)
  substations := h'.substations.trans h.substations
  keeps_iff := fun id c => (h'.keeps_iff id c).trans (h.keeps_iff id c)

theorem seats (h : m.SameOff X k) {t : Terminal} (ht : t.voltageLevel ∉ X) (hs : m.Seats t) :
    k.Seats t := by
  rintro vl node w rfl hw hp
  rw [inside?, h.level vl ht] at hw
  exact hs vl node w rfl hw hp

theorem setTopology (hvl : vl ∈ X) (u : Topology) : n.SameOff X (n.setTopology vl u) where
  level := by
    intro x hx
    have hne : vl ≠ x := fun he => hx (he ▸ hvl)
    simp [Network.setTopology, ExtTreeMap.getElem?_modify, hne]
  shell := n.shell?_setTopology vl u
  substations := rfl
  keeps_iff := fun _ c => by cases c <;> rfl

theorem forget (n : Network) (id : String) : n.SameOff X (n.forget id) where
  level := fun _ _ => rfl
  shell := fun _ => rfl
  substations := rfl
  keeps_iff := fun _ c => by cases c <;> rfl

end Network.SameOff

namespace Network

/-- The cuts are made in the voltage level, one after the other. -/
inductive Cuts (vl : String) : Network → List Cut → Network → Prop
  | nil (n : Network) : Cuts vl n [] n
  | stopAt {n m : Network} {fork : Node} {rest : List Cut} (h : Cuts vl n rest m) :
    Cuts vl n (.stopAt fork :: rest) m
  | switch {n m : Network} {w w' : Wiring} {a b : Node} {id : String} {rest : List Cut}
    (hw : n.inside? vl = some (.nodeBreaker w)) (hw' : w.removeSwitch? id = some w')
    (hk : ((n.setTopology vl (.nodeBreaker w')).forget id).Coherent False)
    (h : Cuts vl ((n.setTopology vl (.nodeBreaker w')).forget id) rest m) :
    Cuts vl n (.remove ⟨a, b, .switch id⟩ :: rest) m
  | connection {n m : Network} {w : Wiring} {a b : Node} {rest : List Cut}
    (hw : n.inside? vl = some (.nodeBreaker w))
    (hk : (n.setTopology vl (.nodeBreaker (w.removeConnections a b))).Coherent False)
    (h : Cuts vl (n.setTopology vl (.nodeBreaker (w.removeConnections a b))) rest m) :
    Cuts vl n (.remove ⟨a, b, .connection⟩ :: rest) m

variable {X : Set String} {n m : Network} {vl : String} {cuts : List Cut} {node : Node}

theorem Cuts.coherent (h : n.Cuts vl cuts m) (hn : n.Coherent False) : m.Coherent False := by
  induction h with
  | nil => exact hn
  | stopAt _ ih => exact ih hn
  | switch _ _ hk _ ih => exact ih hk
  | connection _ hk _ ih => exact ih hk

theorem Cuts.sameOff (h : n.Cuts vl cuts m) (hvl : vl ∈ X) : n.SameOff X m := by
  induction h with
  | nil n => exact .refl n
  | stopAt _ ih => exact ih
  | switch _ _ _ _ ih => exact ((SameOff.setTopology hvl _).trans (.forget _ _)).trans ih
  | connection _ _ _ ih => exact (SameOff.setTopology hvl _).trans ih

/-- The voltage level is pruned from the node on, as the plan for its bay says. -/
def Prunes (n : Network) (vl : String) (node : Node) (m : Network) : Prop :=
  ∃ w, n.inside? vl = some (.nodeBreaker w) ∧ n.Cuts vl ((n.bay w node).prune node) m

theorem Prunes.coherent (h : n.Prunes vl node m) (hn : n.Coherent False) : m.Coherent False := by
  obtain ⟨w, -, hcuts⟩ := h
  exact hcuts.coherent hn

theorem Prunes.sameOff (h : n.Prunes vl node m) (hvl : vl ∈ X) : n.SameOff X m := by
  obtain ⟨w, -, hcuts⟩ := h
  exact hcuts.sameOff hvl

end Network

namespace Run

variable {s t : Session} {vl : String}

theorem cuts_of_cut (hs : s.network.Coherent False) {w : Wiring}
    (hw : s.network.inside? vl = some (.nodeBreaker w)) {connectable : String} {cuts : List Cut}
    (hnodup : (switchIds (removedEdges cuts)).Nodup)
    (hin : ∀ id ∈ switchIds (removedEdges cuts), s.network.index[id]? = some ⟨.switch, some vl⟩)
    (hok : cut connectable vl cuts s = .ok () t) : s.network.Cuts vl cuts t.network := by
  -- Each switch is still in the index when its turn comes, as no id is cut twice.
  induction cuts generalizing s w with
  | nil =>
    cases hok
    exact .nil _
  | cons c rest ih =>
    cases c with
    | stopAt fork =>
      simp only [cut, bind_eq_ok, emit_eq_ok] at hok
      obtain ⟨_, _, rfl, hrun⟩ := hok
      exact .stopAt (ih (s := s.tell (.pruningStopped connectable fork)) hs hw hnodup hin hrun)
    | remove e =>
      obtain ⟨a, b, link⟩ := e
      cases link with
      | switch id =>
        have hids : switchIds (removedEdges (.remove ⟨a, b, .switch id⟩ :: rest)) =
            id :: switchIds (removedEdges rest) := rfl
        rw [hids] at hnodup hin
        obtain ⟨hnot, hrests⟩ := List.nodup_cons.mp hnodup
        obtain ⟨hid, hins⟩ := List.forall_mem_cons.mp hin
        simp only [cut, bind_eq_ok, edit_eq_ok, emit_eq_ok] at hok
        obtain ⟨_, _, ⟨k, hk, rfl⟩, _, _, rfl, hrun⟩ := hok
        have hcoherent : k.Coherent False :=
          (Change.removeSwitch id).coherent_of_ok (Edit.after_return _ _) hs hk
        obtain ⟨x, u, hx, rfl, hwired, -⟩ := Edit.removeSwitch_eq_ok hk
        cases hid.symm.trans hx
        obtain ⟨w', hw', rfl⟩ := hwired w hw
        refine .switch hw hw' hcoherent (ih hcoherent (inside?_setTopology_self hw _) hrests
          (fun y hy => ?_) hrun)
        have hne : id ≠ y := fun he => hnot (he ▸ hy)
        exact (getElem?_erase_of_ne hne).trans (hins y hy)
      | connection =>
        simp only [cut, bind_eq_ok, edit_eq_ok, emit_eq_ok] at hok
        obtain ⟨count, _, ⟨k, hk, rfl⟩, _, _, rfl, hrun⟩ := hok
        have hcoherent : k.Coherent False :=
          (Change.removeConnections vl a b).coherent_of_ok (Edit.after_map _ _) hs hk
        obtain ⟨w', hw', rfl⟩ := Edit.removeConnections_eq_ok hk
        exact .connection hw' hcoherent
          (ih (s := Session.tell ⟨_, s.events⟩ (.connectionRemoved a b)) hcoherent
            (inside?_setTopology_self hw' _) hnodup hin hrun)

theorem prunes_of_pruneBay (hs : s.network.Coherent False) {connectable : String} {node : Node}
    (hok : pruneBay connectable vl node s = .ok () t) : s.network.Prunes vl node t.network := by
  simp only [pruneBay, bind_eq_ok, network_eq_ok, lookUp_eq_ok] at hok
  obtain ⟨_, _, ⟨rfl, rfl⟩, w, _, ⟨hw, rfl⟩, hok⟩ := hok
  have hw := wiring_eq_ok_iff.mp hw
  obtain ⟨hnodup, hmem, -⟩ := (hs.sound vl w hw).prune_spec s.network node node
  refine ⟨w, hw, cuts_of_cut hs hw hnodup (fun id hid => ?_) hok⟩
  exact (hs.index_iff id _).mpr (.inside hw ⟨rfl, hmem id hid⟩)

end Run

end Switchyard
