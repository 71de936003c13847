import Switchyard.Bay
import Switchyard.Proofs.Walk
import Switchyard.Proofs.Wiring

namespace Switchyard

/-- The edge that a cut removes. -/
def Cut.edge? : Cut → Option Edge
  | .remove e => some e
  | .stopAt _ => none

/-- The edges that cuts remove, in order. -/
def removedEdges (cuts : List Cut) : List Edge :=
  cuts.filterMap (·.edge?)

namespace Bay

/-- The edges of a bay without their numbers. -/
def links (b : Bay) : List Edge :=
  b.edges.map (·.2)

theorem subperm_without {b : Bay} {entry : Nat × Edge} (h : entry ∈ b.edges) {es : List Edge}
    (hes : es.Subperm (b.without entry.1).links) : (entry.2 :: es).Subperm b.links := by
  let kept := b.edges.filter (·.1 != entry.1)
  have hout : [entry].Sublist (b.edges.filter fun x => !(x.1 != entry.1)) :=
    List.singleton_sublist.mpr (List.mem_filter.mpr ⟨h, by simp⟩)
  have hsplit : (b.edges.filter (fun x => !(x.1 != entry.1)) ++ kept).Perm b.edges :=
    List.perm_append_comm.trans (List.filter_append_perm (fun x => x.1 != entry.1) b.edges)
  have hlinks : (entry.2 :: (b.without entry.1).links).Subperm b.links :=
    ((hout.append_right kept).map Prod.snd).subperm.trans (hsplit.map Prod.snd).subperm
  exact ((List.subperm_cons entry.2).mpr hes).trans hlinks

theorem removeBranches_subperm (b : Bay) (pending : List (Node × Nat × Edge)) :
    (removedEdges (b.removeBranches pending).1 ++ (b.removeBranches pending).2.links).Subperm
      b.links := by
  induction b, pending using removeBranches.induct with
  | case1 b =>
    rw [removeBranches]
    exact List.Subperm.refl _
  | case2 b origin entry rest h smaller cuts last hrest ih =>
    rw [removeBranches, dif_pos h]
    exact subperm_without h ih
  | case3 b origin entry rest h ih =>
    rw [removeBranches, dif_neg h]
    exact ih

theorem removeChain_subperm (b : Bay) (node : Node) :
    (removedEdges (b.removeChain node)).Subperm b.links := by
  induction b, node using removeChain.induct with
  | case1 b node h =>
    rw [removeChain, h]
    exact List.nil_subperm
  | case2 b node entry tail h smaller far hcond ih =>
    rw [removeChain, h]
    dsimp only
    rw [if_pos hcond]
    exact subperm_without (mem_of_mem_edgesAt node (h ▸ List.mem_cons_self)) ih
  | case3 b node entry tail h smaller far hcond =>
    rw [removeChain, h]
    dsimp only
    rw [if_neg hcond]
    exact subperm_without (mem_of_mem_edgesAt node (h ▸ List.mem_cons_self)) List.nil_subperm

theorem pruneFork_subperm (b : Bay) (fork : Node) :
    (removedEdges (b.pruneFork fork)).Subperm b.links := by
  unfold pruneFork
  dsimp only
  split
  · exact List.nil_subperm
  generalize (((b.edgesAt fork).map fun entry =>
    (entry, b.reach fork (entry.2.farEnd fork))).filter (!·.2.equipment)).map
      (fun branch => (fork, branch.1)) = free
  have hfree := removeBranches_subperm b free
  split
  · have hchain := removeChain_subperm (b.removeBranches free).2 fork
    rw [removedEdges, List.filterMap_append]
    exact ((List.subperm_append_left _).mpr hchain).trans hfree
  · exact (List.sublist_append_left _ _).subperm.trans hfree

/-- Pruning removes edges of the bay, each once at most. -/
theorem prune_subperm (b : Bay) (node : Node) : (removedEdges (b.prune node)).Subperm b.links := by
  induction b, node using prune.induct with
  | case1 b node h =>
    rw [prune, h]
    exact List.nil_subperm
  | case2 b node entry h ih =>
    rw [prune, h]
    exact subperm_without (mem_of_mem_edgesAt node (h ▸ List.mem_cons_self)) ih
  | case3 b node hnil hone =>
    rw [prune]
    split
    · exact absurd ‹_› hnil
    · exact absurd ‹_› (hone _)
    · exact pruneFork_subperm b node

end Bay

def Edge.switch? (e : Edge) : Option String :=
  match e.link with
  | .switch id => some id
  | .connection => none

theorem Edge.switch?_eq_some_iff {e : Edge} {id : String} :
    e.switch? = some id ↔ e.link = .switch id := by
  unfold switch?
  cases e.link <;> simp

/-- The ids of the switches on edges. -/
def switchIds (es : List Edge) : List String :=
  es.filterMap (·.switch?)

open Std

theorem switchIds_subperm {es es' : List Edge} (h : es.Subperm es') :
    (switchIds es).Subperm (switchIds es') := by
  obtain ⟨l, hp, hs⟩ := h
  exact ⟨switchIds l, hp.filterMap _, hs.filterMap _⟩

theorem Hop.Along.apart {h : Hop} (ha : h.Along) (hne : h.edge.node1 ≠ h.edge.node2) :
    h.source ≠ h.target := by
  obtain ⟨ht, htarget⟩ := ha
  have ht : h.edge.node1 = h.source ∨ h.edge.node2 = h.source := by
    simpa [Edge.touches] using ht
  rw [htarget, Edge.farEnd]
  split <;> grind

variable [Numbering] {w : Wiring}

theorem Wiring.Sound.nodup_switchIds (h : w.Sound) : (switchIds w.edgeList).Nodup := by
  rw [switchIds, edgeList, values_eq_map_toList, List.filterMap_map, List.Nodup,
    List.pairwise_filterMap]
  refine List.Pairwise.imp_of_mem ?_ ExtTreeMap.distinct_keys_toList
  intro hx hy hm hm' hne id hid id' hid' hz
  obtain ⟨k, e⟩ := hx
  obtain ⟨k', e'⟩ := hy
  subst hz
  have he := ExtTreeMap.mem_toList_iff_getElem?_eq_some.mp hm
  have he' := ExtTreeMap.mem_toList_iff_getElem?_eq_some.mp hm'
  have hk := (h.switchArc_iff id k).mpr ⟨e, he, Edge.switch?_eq_some_iff.mp hid⟩
  have hk' := (h.switchArc_iff id k').mpr ⟨e', he', Edge.switch?_eq_some_iff.mp hid'⟩
  have heq := Option.some.inj (hk.symm.trans hk')
  subst heq
  exact hne compare_self

theorem Wiring.Sound.mem_switchIds (h : w.Sound) {id : String} (hid : id ∈ switchIds w.edgeList) :
    id ∈ w.switches := by
  obtain ⟨e, he, hl⟩ := List.mem_filterMap.mp hid
  obtain ⟨k, hk⟩ := mem_values_iff.mp he
  obtain ⟨s, hs, -⟩ := h.switch_of_edge hk (Edge.switch?_eq_some_iff.mp hl)
  exact mem_iff_exists_getElem?.mpr ⟨s, hs⟩

theorem Network.links_bay (n : Network) (w : Wiring) (start : Node) :
    ∃ hops : List Hop,
      (n.bay w start).links = hops.map (fun h => ⟨h.source, h.target, h.edge.link⟩) ∧
        (hops.map (·.edge)).Subperm w.edgeList ∧ ∀ h ∈ hops, h.Along := by
  refine ⟨_, ?_, w.hops_spec start fun h =>
    if n.occupant w h.target = .rail then .leave else .onward⟩
  have hfst := List.zipIdx_map_fst 0
    (w.hops start fun h => if n.occupant w h.target = .rail then .leave else .onward).2
  have hlinks := congrArg (List.map fun h : Hop => (⟨h.source, h.target, h.edge.link⟩ : Edge)) hfst
  rw [List.map_map] at hlinks
  rw [← hlinks, Bay.links, bay, List.map_map]
  rfl

/-- Pruning a bay cuts switches of the wiring, each once, and no edge from a
node to itself. -/
theorem Wiring.Sound.prune_spec (h : w.Sound) (n : Network) (start node : Node) :
    (switchIds (removedEdges ((n.bay w start).prune node))).Nodup ∧
      (∀ id ∈ switchIds (removedEdges ((n.bay w start).prune node)), id ∈ w.switches) ∧
      ∀ e ∈ removedEdges ((n.bay w start).prune node), e.node1 ≠ e.node2 := by
  obtain ⟨hops, hlinks, hsub, halong⟩ := n.links_bay w start
  have hcut := (n.bay w start).prune_subperm node
  rw [hlinks] at hcut
  have hids : (switchIds (removedEdges ((n.bay w start).prune node))).Subperm
      (switchIds w.edgeList) := by
    have hturned : switchIds (hops.map fun h => ⟨h.source, h.target, h.edge.link⟩) =
        switchIds (hops.map (·.edge)) := by
      simp only [switchIds, List.filterMap_map]
      rfl
    exact (hturned ▸ switchIds_subperm hcut).trans (switchIds_subperm hsub)
  refine ⟨?_, fun id hid => h.mem_switchIds (hids.subset hid), fun e he => ?_⟩
  · obtain ⟨l, hp, hs⟩ := hids
    exact hp.nodup_iff.mp (hs.nodup h.nodup_switchIds)
  · obtain ⟨hop, hhop, rfl⟩ := List.mem_map.mp (hcut.subset he)
    obtain ⟨k, hk⟩ := mem_values_iff.mp (hsub.subset (List.mem_map.mpr ⟨hop, hhop, rfl⟩))
    exact (halong hop hhop).apart (h.loopless hk)

end Switchyard
