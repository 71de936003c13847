import Mathlib.Data.List.Pairwise
import Switchyard.Proofs.BayRails
import Switchyard.SectionInsertion

namespace Switchyard

open Std Network

theorem eq_of_nodup_switchIds {hops : List Hop} (hnodup : (switchIds (hops.map (·.edge))).Nodup)
    {g h : Hop} (hg : g ∈ hops) (hh : h ∈ hops) {id : String} (hlink : g.edge.link = .switch id)
    (hlink' : h.edge.link = .switch id) : g = h := by
  let Apart (a b : Hop) : Prop :=
    ∀ x, a.edge.switch? = some x → ∀ y, b.edge.switch? = some y → x ≠ y
  have hsymm : Std.Symm Apart := ⟨fun a b hab x hx y hy he => hab y hy x hx he.symm⟩
  rw [switchIds, List.filterMap_map, List.Nodup, List.pairwise_filterMap] at hnodup
  have hapart : hops.Pairwise Apart := hnodup
  by_contra hne
  exact hapart.forall hg hh hne id (Edge.switch?_eq_some_iff.mpr hlink) id
    (Edge.switch?_eq_some_iff.mpr hlink') rfl

namespace Trace

variable {parents : ExtTreeMap Node Hop} {node : Node}

/-- No two nodes were come to by one switch. -/
def Apart (parents : ExtTreeMap Node Hop) : Prop :=
  ∀ (a b : Node) (g h : Hop) (id : String), parents[a]? = some g → parents[b]? = some h →
    g.edge.link = .switch id → h.edge.link = .switch id → a = b

theorem getElem?_of_erase {a : Node} {h : Hop} (he : (parents.erase node)[a]? = some h) :
    a ≠ node ∧ parents[a]? = some h := by
  rw [ExtTreeMap.getElem?_erase] at he
  split at he
  · cases he
  next hne => exact ⟨fun ha => hne (by simp [ha]), he⟩

theorem Apart.erase (h : Apart parents) (node : Node) : Apart (parents.erase node) :=
  fun a b g g' id hg hg' =>
    h a b g g' id (getElem?_of_erase hg).2 (getElem?_of_erase hg').2

/-- The switches of a way back are those of hops that came to its nodes. -/
theorem exists_hop_of_mem_switchesTo {id : String} (hid : id ∈ switchesTo parents node) :
    ∃ (a : Node) (h : Hop), parents[a]? = some h ∧ h.edge.link = .switch id := by
  induction parents, node using switchesTo.induct with
  | case1 parents node hnone =>
    rw [switchesTo, hnone] at hid
    cases hid
  | case2 parents node hop hsome id' hlink ih =>
    rw [switchesTo, hsome] at hid
    dsimp only at hid
    rw [hlink] at hid
    rcases List.mem_cons.mp hid with rfl | hid
    · exact ⟨node, hop, hsome, hlink⟩
    · obtain ⟨a, h, ha, hl⟩ := ih hid
      exact ⟨a, h, (getElem?_of_erase ha).2, hl⟩
  | case3 parents node hop hsome hlink ih =>
    rw [switchesTo, hsome] at hid
    dsimp only at hid
    rw [hlink] at hid
    obtain ⟨a, h, ha, hl⟩ := ih hid
    exact ⟨a, h, (getElem?_of_erase ha).2, hl⟩

theorem nodup_switchesTo (hapart : Apart parents) : (switchesTo parents node).Nodup := by
  induction parents, node using switchesTo.induct with
  | case1 parents node hnone =>
    rw [switchesTo, hnone]
    exact List.nodup_nil
  | case2 parents node hop hsome id hlink ih =>
    rw [switchesTo, hsome]
    dsimp only
    rw [hlink]
    refine List.nodup_cons.mpr ⟨fun hid => ?_, ih (hapart.erase node)⟩
    obtain ⟨a, h, ha, hl⟩ := exists_hop_of_mem_switchesTo hid
    obtain ⟨hne, ha⟩ := getElem?_of_erase ha
    exact hne (hapart a node h hop id ha hsome hl hlink)
  | case3 parents node hop hsome hlink ih =>
    rw [switchesTo, hsome]
    dsimp only
    rw [hlink]
    exact ih (hapart.erase node)

/-- What a walk to a section at the position has come by. The hops are those that
were offered. -/
structure Came (n : Network) (w : Wiring) (position : BusbarPosition) (hops : List Hop)
    (t : Trace) : Prop where
  parent : ∀ (a : Node) h, t.parents[a]? = some h →
    h ∈ hops ∧ h.target = a ∧ w.terminals[h.target]? = none
  found : ∀ h, t.found = some h → h ∈ hops ∧
    ∃ a, w.terminals[h.target]? = some a ∧ n.busbarSections.contains a.connectable = true

end Trace

/-- The next section is there, and each switch on the way is one of the wiring and
comes once. -/
structure Neighbour.Reached (n : Network) (w : Wiring) (found : Neighbour) : Prop where
  rail : n.occupant w found.node = .rail
  nodup : found.switches.Nodup
  switches : ∀ id ∈ found.switches, id ∈ w.switches

namespace Trace.Came

variable {n : Network} {w : Wiring} {position : BusbarPosition} {hops : List Hop} {t : Trace}

theorem initial (n : Network) (w : Wiring) (position : BusbarPosition) :
    Came n w position [] {} where
  parent := by simp
  found := by simp

theorem cons (h : Came n w position hops t) (hop : Hop) : Came n w position (hop :: hops) t where
  parent := fun a g hg => (h.parent a g hg).imp_left (List.mem_cons_of_mem hop)
  found := fun g hg => (h.found g hg).imp_left (List.mem_cons_of_mem hop)

theorem insert (h : Came n w position hops t) {hop : Hop}
    (hfree : w.terminals[hop.target]? = none) :
    Came n w position (hop :: hops)
      { t with parents := t.parents.insertIfNew hop.target hop } where
  parent := fun a g hg => by
    rw [ExtTreeMap.getElem?_insertIfNew] at hg
    split at hg
    next hkey =>
      cases hg
      exact ⟨List.mem_cons_self, by simpa using hkey.1, hfree⟩
    next => exact (h.cons hop).parent a g hg
  found := (h.cons hop).found

theorem find (h : Came n w position hops t) {hop : Hop} {a : Attachment}
    (ha : w.terminals[hop.target]? = some a)
    (hp : n.busbarSections[a.connectable]?.bind (·.position) = some position) :
    Came n w position (hop :: hops) { t with found := some hop } where
  parent := (h.cons hop).parent
  found := fun g hg => by
    cases hg
    obtain ⟨b, hb, -⟩ := Option.bind_eq_some_iff.mp hp
    exact ⟨List.mem_cons_self, a, ha,
      ExtTreeMap.contains_iff_mem.mpr (mem_iff_exists_getElem?.mpr ⟨b, hb⟩)⟩

theorem apart (h : Came n w position hops t) (hnodup : (switchIds (hops.map (·.edge))).Nodup) :
    Apart t.parents := by
  intro a b g g' id hg hg' hlink hlink'
  obtain ⟨hmem, rfl, -⟩ := h.parent a g hg
  obtain ⟨hmem', rfl, -⟩ := h.parent b g' hg'
  rw [eq_of_nodup_switchIds hnodup hmem hmem' hlink hlink']

theorem mem_switches (hw : w.Sound) (hsub : (hops.map (·.edge)).Subperm w.edgeList) {hop : Hop}
    (hmem : hop ∈ hops) {id : String} (hlink : hop.edge.link = .switch id) : id ∈ w.switches := by
  have he : hop.edge ∈ w.edgeList := hsub.subset (List.mem_map_of_mem hmem)
  exact hw.mem_switchIds (List.mem_filterMap.mpr ⟨_, he, Edge.switch?_eq_some_iff.mpr hlink⟩)

/-- The walk comes to the section that it found by no other edge of its way. -/
theorem reached (h : Came n w position hops t) (hw : w.Sound)
    (hsub : (hops.map (·.edge)).Subperm w.edgeList) {hop : Hop} (hfound : t.found = some hop) :
    Neighbour.Reached n w
      ⟨hop.target, hop.edge.switch?.toList ++ switchesTo t.parents hop.source⟩ := by
  obtain ⟨hmem, a, ha, hrail⟩ := h.found hop hfound
  have hnodup : (switchIds (hops.map (·.edge))).Nodup := by
    obtain ⟨l, hp, hs⟩ := switchIds_subperm hsub
    exact hp.nodup_iff.mp (hs.nodup hw.nodup_switchIds)
  refine ⟨by simp [occupant, ha, hrail], ?_, fun id hid => ?_⟩
  · refine List.nodup_append.mpr ⟨by cases hop.edge.switch? <;> simp,
      nodup_switchesTo (h.apart hnodup), ?_⟩
    rintro id hid _ hway rfl
    obtain ⟨b, g, hg, hlink⟩ := exists_hop_of_mem_switchesTo hway
    obtain ⟨hg, -, hfree⟩ := h.parent b g hg
    have hlast := Edge.switch?_eq_some_iff.mp (Option.mem_toList.mp hid)
    cases eq_of_nodup_switchIds hnodup hmem hg hlast hlink
    rw [ha] at hfree
    cases hfree
  · rcases List.mem_append.mp hid with hid | hway
    · exact mem_switches hw hsub hmem (Edge.switch?_eq_some_iff.mp (Option.mem_toList.mp hid))
    · obtain ⟨b, g, hg, hlink⟩ := exists_hop_of_mem_switchesTo hway
      exact mem_switches hw hsub (h.parent b g hg).1 hlink

end Trace.Came

namespace Network

theorem neighbour?_reached {n : Network} {w : Wiring} (hw : w.Sound) {start : Rail}
    {position : BusbarPosition} {found : Neighbour}
    (h : n.neighbour? w start position = some found) : found.Reached n w := by
  unfold neighbour? at h
  obtain ⟨hop, hfound, rfl⟩ := Option.map_eq_some_iff.mp h
  have hreached : ∀ t : Trace, (∃ hops : List Hop, (hops.map (·.edge)).Subperm w.edgeList ∧
      (∀ h ∈ hops, h.Along) ∧ Trace.Came n w position hops t) → t.found = some hop →
      Neighbour.Reached n w
        ⟨hop.target, hop.edge.switch?.toList ++ Trace.switchesTo t.parents hop.source⟩ := by
    rintro t ⟨hops, hsub, -, hcame⟩ hfound
    exact hcame.reached hw hsub hfound
  have hreached := hreached _ (w.traverse_induction _ _ (.initial n w position) ?_) hfound
  · unfold Edge.switch? at hreached
    cases hlink : hop.edge.link <;> rw [hlink] at hreached <;> exact hreached
  · intro hops t hop hcame
    split
    next hfree => exact hcame.insert hfree
    next a ha =>
      split
      · exact hcame.cons hop
      · split
        next hp => exact hcame.find ha hp
        next => exact hcame.cons hop

end Network

end Switchyard
