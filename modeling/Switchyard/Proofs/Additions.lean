import Mathlib.Data.List.Pairwise
import Switchyard.Proofs.Extensions
import Switchyard.Proofs.Refusals

namespace Switchyard

open Std Network

variable {n m : Network} {bays : List LaidBay} {C : Set Connectable} {ts : List Terminal}
  {b : LaidBay} {vl : String} {a : Node}

namespace BayPlan

/-- The node is one of the two nodes of the bay. -/
def Takes (p : BayPlan) (vl : String) (a : Node) : Prop :=
  p.voltageLevel = vl ∧ (p.nodes.equipment = a ∨ p.nodes.fork = a)

instance (p : BayPlan) (vl : String) (a : Node) : Decidable (p.Takes vl a) :=
  inferInstanceAs (Decidable (_ ∧ _))

theorem Apart.symm {p q : BayPlan} (h : p.Apart q) : q.Apart p := fun hvl =>
  have ⟨h1, h2, h3, h4⟩ := h hvl.symm
  ⟨h1.symm, h3.symm, h2.symm, h4.symm⟩

theorem Apart.not_takes {p q : BayPlan} (h : p.Apart q) (hp : p.Takes vl a) : ¬q.Takes vl a := by
  obtain ⟨rfl, hp⟩ := hp
  rintro ⟨hvl, hq⟩
  obtain ⟨h1, h2, h3, h4⟩ := h hvl.symm
  rcases hp with rfl | rfl <;> rcases hq with hq | hq
  · exact h1 hq.symm
  · exact h2 hq.symm
  · exact h3 hq.symm
  · exact h4 hq.symm

end BayPlan

namespace Network

/-- The node of a busbar section. -/
def sectionNode (n : Network) (id : String) : Node :=
  (n.busbarSections[id]?.map (·.node)).getD 0

/-- The nodes of a bay fold back to the busbar section it is closed to. -/
def bayFold (n : Network) (bays : List LaidBay) : Fold where
  node vl a := ((bays.find? (·.Takes vl a)).map fun b => n.sectionNode b.target).getD a
  bus _ b := b

theorem bayFold_of_takes (h : bays.Pairwise fun b c => b.Apart c.toBayPlan) (hb : b ∈ bays)
    (ha : b.Takes vl a) : (n.bayFold bays).node vl a = n.sectionNode b.target := by
  have hsymm : Std.Symm fun b c : LaidBay => b.Apart c.toBayPlan := ⟨fun _ _ h => h.symm⟩
  have hfind : bays.find? (·.Takes vl a) = some b := by
    cases hc : bays.find? (·.Takes vl a) with
    | none => exact absurd (decide_eq_true ha) (List.find?_eq_none.mp hc b hb)
    | some c =>
      have hmem := List.mem_of_find?_eq_some hc
      have htakes : c.Takes vl a := by simpa using List.find?_some hc
      by_contra hne
      exact (h.forall hmem hb fun he => hne (congrArg some he)).not_takes htakes ha
  simp only [bayFold, hfind, Option.map_some, Option.getD_some]

theorem bayFold_of_placed (h : ∀ b ∈ bays, b.Fits n) {w : Wiring}
    (hw : n.inside? vl = some (.nodeBreaker w)) (ha : a ∈ w.places) :
    (n.bayFold bays).node vl a = a := by
  have hnone : bays.find? (·.Takes vl a) = none := by
    refine List.find?_eq_none.mpr fun b hb htakes => ?_
    obtain ⟨rfl, hends⟩ := of_decide_eq_true htakes
    obtain ⟨u, hu, hequipment, hfork⟩ := (h b hb).wired
    cases hw.symm.trans hu
    rcases hends with rfl | rfl
    · exact hequipment ha
    · exact hfork ha
  simp only [bayFold, hnone, Option.map_none, Option.getD_none]

/-- The closed switches of a bay lead from its nodes to its busbar section. -/
theorem Serves.folds (h : n.Serves bays ts) (hn : n.Coherent False) (hb : b ∈ bays) {s : Switch}
    (hs : s ∈ b.switches) :
    s.isOpen = true ∨ (n.bayFold bays).node b.voltageLevel s.node1 =
      (n.bayFold bays).node b.voltageLevel s.node2 := by
  have hequipment := bayFold_of_takes (n := n) h.apart hb
    (show b.Takes b.voltageLevel b.nodes.equipment from ⟨rfl, Or.inl rfl⟩)
  have hfork := bayFold_of_takes (n := n) h.apart hb
    (show b.Takes b.voltageLevel b.nodes.fork from ⟨rfl, Or.inr rfl⟩)
  rcases List.mem_cons.mp hs with rfl | hs
  · right
    rw [b.first_ends.2.1, b.first_ends.2.2, hequipment, hfork]
  · have hm : s.unnamed ∈ b.rails.map b.disconnector := by
      rw [← b.others_eq]
      exact List.mem_map_of_mem hs
    obtain ⟨r, hr, he⟩ := List.mem_map.mp hm
    obtain ⟨hopen, hnode1, hnode2⟩ :
        (r.id != b.target) = s.isOpen ∧ b.nodes.fork = s.node1 ∧ r.node = s.node2 :=
      ⟨congrArg Switch.isOpen he, congrArg Switch.node1 he, congrArg Switch.node2 he⟩
    rw [← hopen, ← hnode1, ← hnode2, hfork]
    -- The rail that is closed is the target, whose node was there before and so stays itself.
    by_cases htarget : r.id = b.target
    · right
      have hrail := (h.fits b hb).rails r hr
      obtain ⟨w, hw⟩ := hrail.wiring hn
      have hplaced := (hn.sound _ w hw).placed_of_referenced (hn.referenced_rail hrail hw)
      obtain ⟨x, hx, -, hxnode⟩ := hrail
      rw [bayFold_of_placed h.fits hw hplaced, ← hxnode, sectionNode, ← htarget, hx,
        Option.map_some, Option.getD_some]
    · exact Or.inl (bne_iff_ne.mpr htarget)

theorem Extended.grown (h : Extended ∅ (laid bays) C n m) (hserves : n.Serves bays ts) :
    n.Grown (n.bayFold bays) m where
  substations := h.substations
  shell := h.shell
  inside := by
    intro vl t ht
    obtain ⟨u, hu, haugmented⟩ := h.inside vl (Set.notMem_empty vl) t ht
    refine ⟨u, hu, ?_⟩
    cases haugmented with
    | layout l => exact .layout (.refl l)
    | wiring hw hw' ha =>
      refine .wiring ⟨fun a hplaced => (ha.place_iff a).mpr (Or.inl hplaced),
        fun id s hs => ha.getElem?_switches.mpr (Or.inl hs), fun k e => ha.edge_kept hw,
        fun x y hc => ?_⟩
      refine (ha.closes_iff.mp hc).imp_right ?_
      rintro ⟨s, ⟨⟨b, hb, hs⟩, rfl⟩, hclosed, rfl, rfl⟩
      rw [LaidBay.voltageLevel_of_mem hs]
      refine (hserves.folds h.base hb hs).resolve_left ?_
      rw [hclosed]
      exact Bool.false_ne_true
  connectables := fun id c hc => (h.keeps_iff id c).mpr (Or.inl hc)

theorem Extended.kept (h : Extended ∅ (laid bays) C n m) (hserves : n.Serves bays ts) : n.Kept m :=
  (h.grown hserves).kept h.base (fun _ _ hw _ ha => bayFold_of_placed hserves.fits hw ha)
    fun _ _ _ _ _ => rfl

end Network

namespace Run

variable {tight : Prop} {doomed : String → Prop} {steps : Run Unit} {post : Unit → Session → Prop}

/-- What holds of the network wherever the steps may end holds of what comes of them. -/
theorem Traced.outcome (h : Traced tight doomed steps ⟨n, []⟩ post) (hn : n.Coherent tight)
    {p : Network → Prop} (hok : ∀ t, steps ⟨n, []⟩ = .ok () t → p t.network)
    (hfails : steps.Fails ⟨n, []⟩ fun _ t => p t.network) (strict : Bool) :
    p ((steps.finish strict).outcome n).network := by
  by_cases hs : ((steps.finish strict).outcome n).Succeeds
  · obtain ⟨t, hrun, hnetwork⟩ := ok_of_succeeds hs
    rw [hnetwork]
    exact hok t hrun
  · obtain ⟨f, t, hrun, hnetwork, -⟩ := h.error_of_not_succeeds hn hs
    rw [hnetwork]
    exact hfails f t hrun

/-- Steps that extend the network keep what there was, wherever they end. -/
theorem Makes.kept (hmakes : Makes (Change.Extends n.fold) steps ⟨n, []⟩)
    (h : Traced False doomed steps ⟨n, []⟩ post) (hn : n.Coherent False) (strict : Bool) :
    n.Kept ((steps.finish strict).outcome n).network :=
  h.outcome hn (fun _ hr => ((hmakes.ok hn hr).grown hn).kept_of_fold hn)
    (fun _ _ hr => ((hmakes.error hn hr).grown hn).kept_of_fold hn) strict

end Run

namespace Modification

/-- The modifications that add to a network only. -/
def Adds : Modification → Prop
  | .feederBays _ | .feederConnection _ | .grid _ => True
  | _ => False

theorem kept_of_adds (h : n.Coherent False) {r : Request} {m : Modification}
    (hbuild : r.build = .ok m) (hm : m.Adds) (hroom : m.HasRoom n) (naming : NamingStrategy)
    (strict : Bool) : n.Kept (m.apply n naming strict).network := by
  cases m with
  | feederBays c =>
    have htraced : Run.Traced False (fun _ => False) (c.steps naming) ⟨n, []⟩ fun _ _ => True :=
      c.traced_steps naming fun _ => id
    have hlen := FeederBays.length_bays hbuild
    -- Equipment drawn up for another network is removed again, so an end with a fault is not
    -- reached by additions only.
    refine htraced.outcome h (fun t hok => ?_) (fun f t hfault => ?_) strict
    · obtain ⟨d, bays, hserves, hextended⟩ :=
        FeederBays.extended_steps (s := ⟨n, []⟩) hlen h hroom hok
      exact hextended.kept hserves
    · have hrestored :=
        FeederBays.restores_steps (s := ⟨n, []⟩) hlen h hroom naming f t hfault
      rw [← laid_nil] at hrestored
      exact hrestored.kept (.nil n)
  | feederConnection c =>
    have htraced : Run.Builds False (fun _ => False) (c.steps naming) ⟨n, []⟩ :=
      c.builds_steps naming fun _ => id
    exact (c.makes_steps naming).kept htraced h strict
  | grid g =>
    have htraced : Run.Builds False (fun _ => False) (g.steps naming) ⟨n, []⟩ :=
      g.builds_steps naming fun _ => id
    exact (g.makes_steps (s := ⟨n, []⟩) hroom naming).kept htraced h strict
  | _ => exact hm.elim

end Modification

end Switchyard
