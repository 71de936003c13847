import Switchyard.Proofs.Nodes
import Switchyard.Proofs.Tours

namespace Switchyard

open Std Relation

namespace Wiring

variable {w : Wiring} {verdict : Hop → Verdict} {start a : Node} {e : Edge} {seen : List Hop}

/-- The nodes that a walk comes to: its start, if that is a node, and what an edge leads to
from one of them if the visitor walks on there. -/
inductive Region (w : Wiring) (verdict : Hop → Verdict) (start : Node) : Node → Prop
  | start (hnode : start ∈ w.nodes) : Region w verdict start start
  | onward {a b : Node} {e : Edge} (hregion : Region w verdict start a) (he : e ∈ w.edgeList)
    (hends : e.Between a b) (hgo : verdict ⟨a, e, b⟩ = .onward) : Region w verdict start b

/-- An end of the edge is in the region. -/
def Borders (w : Wiring) (verdict : Hop → Verdict) (start : Node) (e : Edge) : Prop :=
  ∃ a, w.Region verdict start a ∧ e.touches a = true

open Classical in
/-- The hops start in the region. They go along each edge with an end there, once for each
time it is in the wiring, and along no other. -/
structure Offers (w : Wiring) (verdict : Hop → Verdict) (start : Node) (seen : List Hop) :
    Prop where
  along : ∀ h ∈ seen, h.Along ∧ w.Region verdict start h.source
  edges_perm : (seen.map (·.edge)).Perm
    (w.edgeList.filter fun e => decide (w.Borders verdict start e))

theorem Laid.mem_nodes_of_touches (h : w.Laid) (he : e ∈ w.edgeList) (ht : e.touches a = true) :
    a ∈ w.nodes := by
  obtain ⟨k, hk⟩ := mem_values_iff.mp he
  exact mem_nodes.mpr (h.placed_of_touches hk ht)

theorem region_iff :
    w.Region verdict start a ↔
      start ∈ w.nodes ∧ ReflTransGen (Goes w.edgeList verdict) start a := by
  constructor
  · intro h
    induction h with
    | start hnode => exact ⟨hnode, .refl⟩
    | onward _ he hends hgo ih => exact ⟨ih.1, ih.2.tail ⟨_, he, hends, hgo⟩⟩
  · rintro ⟨hnode, h⟩
    induction h with
    | refl => exact .start hnode
    | tail _ hstep ih =>
      obtain ⟨e, he, hends, hgo⟩ := hstep
      exact .onward ih he hends hgo

/-- A walk that comes to an edge started at a node. -/
theorem Laid.start_mem_nodes (h : w.Laid) (ha : ReflTransGen (Goes w.edgeList verdict) start a)
    (he : e ∈ w.edgeList) (ht : e.touches a = true) : start ∈ w.nodes := by
  rcases ha.cases_head with rfl | ⟨b, ⟨f, hf, hends, -⟩, -⟩
  · exact h.mem_nodes_of_touches he ht
  · exact h.mem_nodes_of_touches hf (hends.touches_iff.mpr (Or.inl rfl))

/-- A walk that is back at its start has offered the edges of its region. -/
theorem Laid.offers (h : w.Laid) {edges : List Edge} {entered : List Node}
    (hdone : Underway w.edgeList verdict start edges entered [] seen) :
    w.Offers verdict start seen := by
  classical
  have hregion : ∀ g ∈ seen, w.Region verdict start g.source := by
    intro g hg
    have hreached := hdone.reached _ (hdone.ends g hg).1
    exact region_iff.mpr
      ⟨h.start_mem_nodes hreached (hdone.edge_mem hg) (hdone.along g hg).1, hreached⟩
  refine ⟨fun g hg => ⟨hdone.along g hg, hregion g hg⟩, ?_⟩
  have hoffered : ∀ e ∈ seen.map (·.edge), decide (w.Borders verdict start e) = true := by
    intro e he
    obtain ⟨g, hg, rfl⟩ := List.mem_map.mp he
    exact decide_eq_true ⟨g.source, hregion g hg, (hdone.along g hg).1⟩
  have hleft : ∀ e ∈ edges, ¬decide (w.Borders verdict start e) = true := by
    intro e he hborders
    obtain ⟨a, ha, ht⟩ := of_decide_eq_true hborders
    have hentered := hdone.mem_entered (region_iff.mp ha).2
    have hno := (hdone.left a hentered).resolve_left List.not_mem_nil e he
    rw [ht] at hno
    cases hno
  have hsplit := hdone.split.filter fun e => decide (w.Borders verdict start e)
  rwa [List.filter_append, List.filter_eq_self.mpr hoffered, List.filter_eq_nil_iff.mpr hleft,
    List.append_nil] at hsplit

theorem hops_eq {back : Bool}
    (h : walk (fun seen g => (verdict g, g :: seen)) w.edgeList [start] [start] [] =
      (back, seen.foldl (fun seen g => (verdict g, g :: seen).2) [])) :
    w.hops start verdict = (back, seen) := by
  have hreverse : (seen.foldl (fun seen g => (verdict g, g :: seen).2) []).reverse = seen := by
    simp
  simp only [hops, traverse, h, hreverse]

/-- A walk offers the edges of its region, or ends at the first edge that stops it. -/
theorem Laid.hops_cases (h : w.Laid) (start : Node) (verdict : Hop → Verdict) :
    ((w.hops start verdict).1 = true ∧ (∀ g ∈ (w.hops start verdict).2, verdict g ≠ .stop) ∧
      w.Offers verdict start (w.hops start verdict).2) ∨
      ∃ before last, w.hops start verdict = (false, before ++ [last]) ∧
        (∀ g ∈ before, verdict g ≠ .stop) ∧ verdict last = .stop := by
  obtain ⟨seen, edges, entered, hdone, hwalk⟩ | ⟨before, last, hgoing, hstop, hwalk⟩ :=
    @walk_underway _ (fun seen g => (verdict g, g :: seen)) verdict (fun _ _ => rfl) w.edgeList
      start []
  · rw [hops_eq hwalk]
    exact Or.inl ⟨rfl, hdone.going, h.offers hdone⟩
  · exact Or.inr ⟨before, last, hops_eq hwalk, hgoing, hstop⟩

end Wiring

namespace Network

/-- In every network that can come about, a walk that is never stopped comes back to its
start and offers each edge at its region once, from a node of the region. A walk is stopped
exactly by an edge that it offers, and that edge is the last one. -/
theorem traversal_covers_region (id : String) (serial : Nat) (ops : List Operation) {vl : String}
    {w : Wiring} (hw : ((empty id serial).after ops).wiring vl = .ok w) (start : Node)
    (verdict : Hop → Verdict) :
    ((∀ h, verdict h ≠ .stop) →
      (w.hops start verdict).1 = true ∧ w.Offers verdict start (w.hops start verdict).2) ∧
    ((w.hops start verdict).1 = false ↔ ∃ h ∈ (w.hops start verdict).2, verdict h = .stop) ∧
    ∀ before h after, (w.hops start verdict).2 = before ++ h :: after → verdict h = .stop →
      after = [] := by
  have hn := (coherent_empty False id serial).after ops False.elim
  have hlaid := (hn.sound vl w (wiring_eq_ok_iff.mp hw)).toLaid
  rcases hlaid.hops_cases start verdict with ⟨hback, hgoing, hoffers⟩ |
    ⟨past, last, hhops, hgoing, hstop⟩
  · refine ⟨fun _ => ⟨hback, hoffers⟩, ?_, fun before h after hsplit hstop => ?_⟩
    · rw [hback]
      exact ⟨Bool.noConfusion, fun ⟨h, hh, hstop⟩ => absurd hstop (hgoing h hh)⟩
    · exact absurd hstop (hgoing h (hsplit ▸ List.mem_append_right _ List.mem_cons_self))
  · rw [hhops]
    refine ⟨fun hnever => absurd hstop (hnever last), ?_, fun before h after hsplit hstop' => ?_⟩
    · exact ⟨fun _ => ⟨last, List.mem_append_right _ (List.mem_singleton_self last), hstop⟩,
        fun _ => rfl⟩
    · by_contra hafter
      have hin : h ∈ past := by
        have hlast := congrArg List.dropLast hsplit
        rw [List.dropLast_concat, List.dropLast_append_of_ne_nil (List.cons_ne_nil h after),
          List.dropLast_cons_of_ne_nil hafter] at hlast
        exact hlast ▸ List.mem_append_right _ List.mem_cons_self
      exact hgoing h hin hstop'

/-- A busbar section with a ring of three switches and an internal connection behind it. -/
def ringedBusbar : List Operation :=
  [.change (.addVoltageLevel { id := "V" }),
    .change (.addBusbarSection { voltageLevel := "V", id := "B", node := 0 }),
    .change (.addSwitch { voltageLevel := "V", id := "D1", node1 := 0, node2 := 1 }),
    .change (.addSwitch { voltageLevel := "V", id := "D2", node1 := 1, node2 := 2 }),
    .change (.addConnection "V" 1 3),
    .change (.addSwitch { voltageLevel := "V", id := "D3", node1 := 2, node2 := 4 }),
    .change (.addSwitch { voltageLevel := "V", id := "D4", node1 := 3, node2 := 4 })]

/-- Does not walk on into node 2. -/
def shunTwo (h : Hop) : Verdict :=
  if h.target = 2 then .leave else .onward

theorem traversal_covers_region_ringedBusbar :
    ∃ w, ((empty "N" 0).after ringedBusbar).wiring "V" = .ok w ∧ (w.hops 0 shunTwo).1 = true ∧
      w.Offers shunTwo 0 (w.hops 0 shunTwo).2 ∧
      (w.hops 0 shunTwo).2.map (fun h => (h.source, h.target)) =
        [(0, 1), (1, 2), (1, 3), (3, 4), (4, 2)] := by
  have hhops : (((empty "N" 0).after ringedBusbar).wiring "V").toOption.map
      (fun w => (w.hops 0 shunTwo).2.map fun h => (h.source, h.target)) =
      some [(0, 1), (1, 2), (1, 3), (3, 4), (4, 2)] := by
    decide +kernel
  obtain ⟨w, hin, hlist⟩ := exists_wiring_of_map hhops
  have hw := wiring_eq_ok_iff.mpr hin
  have hnever : ∀ h, shunTwo h ≠ .stop := by
    intro h
    unfold shunTwo
    split <;> exact Verdict.noConfusion
  obtain ⟨hback, hoffers⟩ := (traversal_covers_region "N" 0 ringedBusbar hw 0 shunTwo).1 hnever
  exact ⟨w, hw, hback, hoffers, hlist⟩

end Network

end Switchyard
