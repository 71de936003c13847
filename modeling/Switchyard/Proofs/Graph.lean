import Switchyard.Proofs.Maps
import Switchyard.Wiring

namespace Switchyard.Wiring

open Std

variable [Numbering] {w : Wiring}

@[simp] theorem getElem?_edges (w : Wiring) (k : Nat) :
    w.edges[k]? = (w.arcs.entries[k]?).map w.edgeOf := by
  simp [edges]

theorem getElem?_edges_next (w : Wiring) : w.edges[w.arcs.next]? = none := by
  rw [getElem?_edges, ExtTreeMap.getElem?_eq_none w.arcs.next_not_mem, Option.map_none]

theorem mem_nodes {node : Node} : node ∈ w.nodes ↔ node ∈ w.places := by
  simp [nodes]

/-- Nodes and points stand for each other, arcs join two points and are told by age, and
the nodes of terminals are there. -/
structure Laid (w : Wiring) : Prop where
  place_iff : ∀ (node : Node) (point : Nat),
    w.places[node]? = some point ↔ w.points.entries[point]? = some node
  source_mem : ∀ (k : Nat) a, w.arcs.entries[k]? = some a → a.source ∈ w.points.entries
  target_mem : ∀ (k : Nat) a, w.arcs.entries[k]? = some a → a.target ∈ w.points.entries
  apart : ∀ (k : Nat) a, w.arcs.entries[k]? = some a → a.source ≠ a.target
  recent_mem : ∀ k ∈ w.arcs.entries, k ∈ w.recent
  terminal_placed : ∀ node ∈ w.terminals, node ∈ w.places

/-- A terminal is at the node, or an end of an edge. -/
def Referenced (w : Wiring) (node : Node) : Prop :=
  node ∈ w.terminals ∨ ∃ (k : Nat) (e : Edge), w.edges[k]? = some e ∧ e.touches node

/-- Every node is there for a terminal or an edge. -/
def Tight (w : Wiring) : Prop :=
  ∀ node ∈ w.places, w.Referenced node

theorem Laid.empty : Laid {} := by
  constructor <;> simp

namespace Laid

theorem places_nodeAt (h : w.Laid) {point : Nat} (hp : point ∈ w.points.entries) :
    w.places[w.nodeAt point]? = some point := by
  obtain ⟨node, hn⟩ := mem_iff_exists_getElem?.mp hp
  rw [h.place_iff, nodeAt, hn, Option.getD_some]

theorem nodeAt_eq (h : w.Laid) {node : Node} {point : Nat} (hp : w.places[node]? = some point) :
    w.nodeAt point = node := by
  rw [nodeAt, (h.place_iff node point).mp hp, Option.getD_some]

theorem nodeAt_eq_iff (h : w.Laid) {node : Node} {point at' : Nat}
    (hp : w.places[node]? = some point)
    (ha : at' ∈ w.points.entries) : w.nodeAt at' = node ↔ at' = point := by
  constructor
  · intro he
    have hq := h.places_nodeAt ha
    rw [he, hp] at hq
    exact (Option.some.inj hq).symm
  · intro hx
    subst hx
    exact h.nodeAt_eq hp

theorem touches_iff (h : w.Laid) {k : Nat} {node : Node} {point : Nat} {a : Arc}
    (ha : w.arcs.entries[k]? = some a) (hp : w.places[node]? = some point) :
    (w.edgeOf a).touches node ↔ a.touches point := by
  simp [Edge.touches, Arc.touches, edgeOf, h.nodeAt_eq_iff hp (h.source_mem k a ha),
    h.nodeAt_eq_iff hp (h.target_mem k a ha)]

theorem loopless (h : w.Laid) {k : Nat} {e : Edge} (he : w.edges[k]? = some e) :
    e.node1 ≠ e.node2 := by
  rw [getElem?_edges] at he
  obtain ⟨a, ha, rfl⟩ := Option.map_eq_some_iff.mp he
  intro hl
  have hs := h.places_nodeAt (h.source_mem k a ha)
  rw [show w.nodeAt a.source = w.nodeAt a.target from hl,
    h.places_nodeAt (h.target_mem k a ha)] at hs
  exact h.apart k a ha (Option.some.inj hs).symm

theorem placed_of_touches (h : w.Laid) {k : Nat} {node : Node} {e : Edge}
    (he : w.edges[k]? = some e)
    (ht : e.touches node) : node ∈ w.places := by
  rw [getElem?_edges] at he
  obtain ⟨a, ha, rfl⟩ := Option.map_eq_some_iff.mp he
  rw [mem_iff_exists_getElem?]
  have ht : w.nodeAt a.source = node ∨ w.nodeAt a.target = node := by
    simpa [Edge.touches, edgeOf] using ht
  rcases ht with rfl | rfl
  · exact ⟨_, h.places_nodeAt (h.source_mem k a ha)⟩
  · exact ⟨_, h.places_nodeAt (h.target_mem k a ha)⟩

theorem placed_of_referenced (h : w.Laid) {node : Node} (hr : w.Referenced node) :
    node ∈ w.places := by
  rcases hr with ht | ⟨k, e, he, ht⟩
  · exact h.terminal_placed node ht
  · exact h.placed_of_touches he ht

end Laid

/-- References come from the edges and the terminals alone. -/
theorem referenced_congr {w' : Wiring} {node : Node} (he : w'.edges = w.edges)
    (ht : w'.terminals = w.terminals) : w'.Referenced node ↔ w.Referenced node := by
  simp only [Referenced, he, ht]

@[simp] theorem arcs_ensureNode (w : Wiring) (node : Node) :
    (w.ensureNode node).arcs = w.arcs := by
  unfold ensureNode
  split <;> rfl

@[simp] theorem recent_ensureNode (w : Wiring) (node : Node) :
    (w.ensureNode node).recent = w.recent := by
  unfold ensureNode
  split <;> rfl

@[simp] theorem terminals_ensureNode (w : Wiring) (node : Node) :
    (w.ensureNode node).terminals = w.terminals := by
  unfold ensureNode
  split <;> rfl

@[simp] theorem switches_ensureNode (w : Wiring) (node : Node) :
    (w.ensureNode node).switches = w.switches := by
  unfold ensureNode
  split <;> rfl

@[simp] theorem switchArcs_ensureNode (w : Wiring) (node : Node) :
    (w.ensureNode node).switchArcs = w.switchArcs := by
  unfold ensureNode
  split <;> rfl

@[simp] theorem mem_places_ensureNode {node other : Node} :
    other ∈ (w.ensureNode node).places ↔ other = node ∨ other ∈ w.places := by
  unfold ensureNode
  split
  next hc =>
    rw [ExtTreeMap.contains_iff_mem] at hc
    constructor
    · exact Or.inr
    · intro hx
      rcases hx with rfl | hm
      · exact hc
      · exact hm
  next => rw [ExtTreeMap.mem_insert, Std.compare_eq_iff_eq, eq_comm]

theorem getElem?_points_ensureNode {node : Node} {point : Nat} (hp : point ∈ w.points.entries) :
    (w.ensureNode node).points.entries[point]? = w.points.entries[point]? := by
  unfold ensureNode
  split
  next => rfl
  next =>
    have hne : w.points.next ≠ point := fun he => w.points.next_not_mem (he ▸ hp)
    simp [ExtTreeMap.getElem?_insert, hne]

theorem mem_points_ensureNode {node : Node} {point : Nat} (hp : point ∈ w.points.entries) :
    point ∈ (w.ensureNode node).points.entries := by
  obtain ⟨n, hn⟩ := mem_iff_exists_getElem?.mp hp
  exact mem_iff_exists_getElem?.mpr ⟨n, (getElem?_points_ensureNode hp).trans hn⟩

theorem Laid.ensureNode (h : w.Laid) (node : Node) : (w.ensureNode node).Laid where
  place_iff := by
    unfold Wiring.ensureNode
    split
    next => exact h.place_iff
    next hc =>
      have hn : w.places[node]? = none := ExtTreeMap.getElem?_eq_none (by simpa using hc)
      have hp : w.points.entries[w.points.next]? = none :=
        ExtTreeMap.getElem?_eq_none w.points.next_not_mem
      intro other point
      have hi := h.place_iff other point
      simp only [Slots.entries_add, ExtTreeMap.getElem?_insert, Std.compare_eq_iff_eq]
      grind
  source_mem := fun k a ha => mem_points_ensureNode (h.source_mem k a (by simpa using ha))
  target_mem := fun k a ha => mem_points_ensureNode (h.target_mem k a (by simpa using ha))
  apart := fun k a ha => h.apart k a (by simpa using ha)
  recent_mem := by simpa using h.recent_mem
  terminal_placed := fun other ho =>
    mem_places_ensureNode.mpr (Or.inr (h.terminal_placed other (by simpa using ho)))

theorem Laid.edges_ensureNode (h : w.Laid) (node : Node) :
    (w.ensureNode node).edges = w.edges := by
  apply ExtTreeMap.ext_getElem?
  intro k
  rw [getElem?_edges, getElem?_edges, arcs_ensureNode]
  apply Option.map_congr
  intro a ha
  simp only [edgeOf, nodeAt, getElem?_points_ensureNode (h.source_mem k a ha),
    getElem?_points_ensureNode (h.target_mem k a ha)]

theorem Laid.addArc (h : w.Laid) {a : Arc} (hs : a.source ∈ w.points.entries)
    (ht : a.target ∈ w.points.entries) (hne : a.source ≠ a.target) : (w.addArc a).Laid where
  place_iff := h.place_iff
  source_mem := by
    intro k b hb
    rw [Wiring.addArc, Slots.entries_add, ExtTreeMap.getElem?_insert] at hb
    split at hb
    next => exact Option.some.inj hb ▸ hs
    next => exact h.source_mem k b hb
  target_mem := by
    intro k b hb
    rw [Wiring.addArc, Slots.entries_add, ExtTreeMap.getElem?_insert] at hb
    split at hb
    next => exact Option.some.inj hb ▸ ht
    next => exact h.target_mem k b hb
  apart := by
    intro k b hb
    rw [Wiring.addArc, Slots.entries_add, ExtTreeMap.getElem?_insert] at hb
    split at hb
    next => exact Option.some.inj hb ▸ hne
    next => exact h.apart k b hb
  recent_mem := by
    intro k hk
    rw [Wiring.addArc, Slots.entries_add, ExtTreeMap.mem_insert] at hk
    rcases hk with he | hk
    · exact LawfulEqCmp.eq_of_compare he ▸ List.mem_cons_self
    · exact List.mem_cons_of_mem _ (h.recent_mem k hk)
  terminal_placed := h.terminal_placed

theorem edges_addArc (w : Wiring) (a : Arc) :
    (w.addArc a).edges = w.edges.insert w.arcs.next (w.edgeOf a) := by
  apply ExtTreeMap.ext_getElem?
  intro k
  rw [getElem?_edges, ExtTreeMap.getElem?_insert, getElem?_edges, addArc, Slots.entries_add,
    ExtTreeMap.getElem?_insert]
  split <;> rfl

theorem addEdge_eq (w : Wiring) (e : Edge) :
    ∃ source target, ((w.ensureNode e.node1).ensureNode e.node2).places[e.node1]? = some source ∧
      ((w.ensureNode e.node1).ensureNode e.node2).places[e.node2]? = some target ∧
      w.addEdge e =
        ((w.ensureNode e.node1).ensureNode e.node2).addArc ⟨source, target, e.link⟩ := by
  have h1 : e.node1 ∈ ((w.ensureNode e.node1).ensureNode e.node2).places := by simp
  have h2 : e.node2 ∈ ((w.ensureNode e.node1).ensureNode e.node2).places := by simp
  obtain ⟨source, hs⟩ := mem_iff_exists_getElem?.mp h1
  obtain ⟨target, ht⟩ := mem_iff_exists_getElem?.mp h2
  refine ⟨source, target, hs, ht, ?_⟩
  simp only [addEdge, hs, ht]

theorem Laid.addEdge (h : w.Laid) {e : Edge} (hne : e.node1 ≠ e.node2) : (w.addEdge e).Laid := by
  obtain ⟨source, target, hs, ht, he⟩ := w.addEdge_eq e
  have h2 := (h.ensureNode e.node1).ensureNode e.node2
  rw [he]
  apply h2.addArc
  · exact mem_iff_exists_getElem?.mpr ⟨e.node1, (h2.place_iff _ _).mp hs⟩
  · exact mem_iff_exists_getElem?.mpr ⟨e.node2, (h2.place_iff _ _).mp ht⟩
  · intro hst
    have hst : source = target := hst
    exact hne ((h2.nodeAt_eq hs).symm.trans (hst ▸ h2.nodeAt_eq ht))

theorem Laid.edges_addEdge (h : w.Laid) (e : Edge) :
    (w.addEdge e).edges = w.edges.insert w.arcs.next e := by
  obtain ⟨source, target, hs, ht, he⟩ := w.addEdge_eq e
  have h2 := (h.ensureNode e.node1).ensureNode e.node2
  have hedge : ((w.ensureNode e.node1).ensureNode e.node2).edgeOf ⟨source, target, e.link⟩ = e := by
    simp only [edgeOf, h2.nodeAt_eq hs, h2.nodeAt_eq ht]
  rw [he, edges_addArc, hedge, (h.ensureNode e.node1).edges_ensureNode, h.edges_ensureNode]
  simp

theorem mem_places_addEdge (w : Wiring) (e : Edge) {node : Node} :
    node ∈ (w.addEdge e).places ↔ node = e.node2 ∨ node = e.node1 ∨ node ∈ w.places := by
  obtain ⟨source, target, -, -, he⟩ := w.addEdge_eq e
  rw [he]
  change node ∈ ((w.ensureNode e.node1).ensureNode e.node2).places ↔ _
  simp only [mem_places_ensureNode]

@[simp] theorem terminals_addEdge (w : Wiring) (e : Edge) :
    (w.addEdge e).terminals = w.terminals := by
  obtain ⟨source, target, -, -, he⟩ := w.addEdge_eq e
  rw [he]
  change ((w.ensureNode e.node1).ensureNode e.node2).terminals = _
  simp

@[simp] theorem switches_addEdge (w : Wiring) (e : Edge) :
    (w.addEdge e).switches = w.switches := by
  obtain ⟨source, target, -, -, he⟩ := w.addEdge_eq e
  rw [he]
  change ((w.ensureNode e.node1).ensureNode e.node2).switches = _
  simp

@[simp] theorem switchArcs_addEdge (w : Wiring) (e : Edge) :
    (w.addEdge e).switchArcs = w.switchArcs := by
  obtain ⟨source, target, -, -, he⟩ := w.addEdge_eq e
  rw [he]
  change ((w.ensureNode e.node1).ensureNode e.node2).switchArcs = _
  simp

/-- An edge keeps the old references and is one at both its ends. -/
theorem Laid.tight_addEdge (h : w.Laid) (ht : w.Tight) (e : Edge) : (w.addEdge e).Tight := by
  intro node hn
  have hself : (w.addEdge e).edges[w.arcs.next]? = some e := by
    rw [h.edges_addEdge, ExtTreeMap.getElem?_insert_self]
  rcases (w.mem_places_addEdge e).mp hn with rfl | rfl | hn
  · exact Or.inr ⟨_, e, hself, by simp [Edge.touches]⟩
  · exact Or.inr ⟨_, e, hself, by simp [Edge.touches]⟩
  · rcases ht node hn with hm | ⟨k, f, hf, hm⟩
    · exact Or.inl (by rwa [terminals_addEdge])
    · refine Or.inr ⟨k, f, ?_, hm⟩
      have hk : w.arcs.next ≠ k := by
        intro hx
        subst hx
        rw [getElem?_edges_next] at hf
        cases hf
      rw [h.edges_addEdge, ExtTreeMap.getElem?_insert]
      simpa [hk] using hf

theorem Laid.dropArc (h : w.Laid) (number : Nat) : (w.dropArc number).Laid := by
  have hsub : ∀ (k : Nat) a, (w.dropArc number).arcs.entries[k]? = some a →
      w.arcs.entries[k]? = some a := by
    intro k a ha
    rw [Wiring.dropArc, Slots.entries_drop, ExtTreeMap.getElem?_erase] at ha
    split at ha
    next => cases ha
    next => exact ha
  exact
    { place_iff := h.place_iff
      source_mem := fun k a ha => h.source_mem k a (hsub k a ha)
      target_mem := fun k a ha => h.target_mem k a (hsub k a ha)
      apart := fun k a ha => h.apart k a (hsub k a ha)
      recent_mem := by
        intro k hk
        rw [Wiring.dropArc, Slots.entries_drop, ExtTreeMap.mem_erase] at hk
        obtain ⟨hne, hk⟩ := hk
        exact (List.mem_erase_of_ne fun he => hne (by simp [he])).mpr (h.recent_mem k hk)
      terminal_placed := h.terminal_placed }

theorem edges_dropArc (w : Wiring) (number : Nat) :
    (w.dropArc number).edges = w.edges.erase number := by
  apply ExtTreeMap.ext_getElem?
  intro k
  rw [getElem?_edges, ExtTreeMap.getElem?_erase, getElem?_edges, dropArc, Slots.entries_drop,
    ExtTreeMap.getElem?_erase]
  split <;> rfl

/-- The node stays if it is referenced, or else its point goes with it. -/
theorem Laid.releaseNode_cases (h : w.Laid) (node : Node) :
    w.releaseNode node = w ∧ (node ∈ w.places → w.Referenced node) ∨
      ∃ point, w.places[node]? = some point ∧ ¬w.Referenced node ∧
        w.releaseNode node =
          { w with points := w.points.drop point, places := w.places.erase node } := by
  unfold releaseNode
  split
  next hn =>
    refine Or.inl ⟨rfl, fun hm => ?_⟩
    obtain ⟨point, hp⟩ := mem_iff_exists_getElem?.mp hm
    rw [hn] at hp
    cases hp
  next point hp =>
    have hedge : w.arcs.entries.values.any (·.touches point) ↔
        ∃ (k : Nat) (e : Edge), w.edges[k]? = some e ∧ e.touches node := by
      simp only [List.any_eq_true, mem_values_iff, getElem?_edges, Option.map_eq_some_iff]
      constructor
      · intro hx
        obtain ⟨a, ⟨k, ha⟩, ht⟩ := hx
        exact ⟨k, _, ⟨a, ha, rfl⟩, (h.touches_iff ha hp).mpr ht⟩
      · intro hx
        obtain ⟨k, _, ⟨a, ha, rfl⟩, ht⟩ := hx
        exact ⟨a, ⟨k, ha⟩, (h.touches_iff ha hp).mp ht⟩
    have hr : (w.terminals.contains node || w.arcs.entries.values.any (·.touches point)) ↔
        w.Referenced node := by
      rw [Bool.or_eq_true, hedge, ExtTreeMap.contains_iff_mem, Referenced]
    split
    next hc => exact Or.inl ⟨rfl, fun _ => hr.mp hc⟩
    next hc => exact Or.inr ⟨point, hp, fun hm => hc (hr.mpr hm), rfl⟩

@[simp] theorem terminals_releaseNode (w : Wiring) (node : Node) :
    (w.releaseNode node).terminals = w.terminals := by
  unfold releaseNode
  split
  · rfl
  · split <;> rfl

@[simp] theorem switches_releaseNode (w : Wiring) (node : Node) :
    (w.releaseNode node).switches = w.switches := by
  unfold releaseNode
  split
  · rfl
  · split <;> rfl

@[simp] theorem switchArcs_releaseNode (w : Wiring) (node : Node) :
    (w.releaseNode node).switchArcs = w.switchArcs := by
  unfold releaseNode
  split
  · rfl
  · split <;> rfl

theorem Laid.releaseNode (h : w.Laid) (node : Node) : (w.releaseNode node).Laid := by
  obtain ⟨he, -⟩ | ⟨point, hp, hn, he⟩ := h.releaseNode_cases node
  · rwa [he]
  rw [he]
  have hpoint := (h.place_iff node point).mp hp
  -- An arc at the point would be an edge at the node.
  have hfree : ∀ (k : Nat) a, w.arcs.entries[k]? = some a →
      a.source ≠ point ∧ a.target ≠ point := by
    intro k a ha
    have ht : ¬a.touches point := fun ht =>
      hn (Or.inr ⟨k, w.edgeOf a, by simp [ha], (h.touches_iff ha hp).mpr ht⟩)
    simpa [Arc.touches] using ht
  have hkept : ∀ other : Nat, other ≠ point → other ∈ w.points.entries →
      other ∈ (w.points.drop point).entries := by
    intro other hne hm
    rw [Slots.entries_drop, ExtTreeMap.mem_erase]
    exact ⟨by simpa using Ne.symm hne, hm⟩
  exact
    { place_iff := by
        intro other p
        have hi := h.place_iff other p
        have hj := h.place_iff other point
        have hk := h.place_iff node p
        simp only [Slots.entries_drop, ExtTreeMap.getElem?_erase, Std.compare_eq_iff_eq]
        grind
      source_mem := fun k a ha => hkept _ (hfree k a ha).1 (h.source_mem k a ha)
      target_mem := fun k a ha => hkept _ (hfree k a ha).2 (h.target_mem k a ha)
      apart := h.apart
      recent_mem := h.recent_mem
      terminal_placed := by
        intro other ho
        have hne : node ≠ other := fun he => hn (Or.inl (he ▸ ho))
        exact ExtTreeMap.mem_erase.mpr ⟨by simpa using hne, h.terminal_placed other ho⟩ }

theorem Laid.edges_releaseNode (h : w.Laid) (node : Node) :
    (w.releaseNode node).edges = w.edges := by
  obtain ⟨he, -⟩ | ⟨point, hp, hn, he⟩ := h.releaseNode_cases node
  · rw [he]
  rw [he]
  apply ExtTreeMap.ext_getElem?
  intro k
  rw [getElem?_edges, getElem?_edges]
  apply Option.map_congr
  intro a ha
  have ht : ¬a.touches point := fun ht =>
    hn (Or.inr ⟨k, w.edgeOf a, by simp [ha], (h.touches_iff ha hp).mpr ht⟩)
  have ht : a.source ≠ point ∧ a.target ≠ point := by simpa [Arc.touches] using ht
  simp [edgeOf, nodeAt, ExtTreeMap.getElem?_erase, Ne.symm ht.1, Ne.symm ht.2]

theorem Laid.referenced_releaseNode (h : w.Laid) (node : Node) {other : Node} :
    (w.releaseNode node).Referenced other ↔ w.Referenced other :=
  referenced_congr (h.edges_releaseNode node) (terminals_releaseNode w node)

theorem Laid.mem_places_releaseNode (h : w.Laid) {node other : Node} :
    other ∈ (w.releaseNode node).places ↔
      other ∈ w.places ∧ (other = node → w.Referenced other) := by
  obtain ⟨he, hr⟩ | ⟨point, hp, hn, he⟩ := h.releaseNode_cases node
  · rw [he]
    exact ⟨fun hm => ⟨hm, fun ho => ho ▸ hr (ho ▸ hm)⟩, And.left⟩
  · rw [he, ExtTreeMap.mem_erase]
    constructor
    · intro hx
      obtain ⟨hne, hm⟩ := hx
      exact ⟨hm, fun ho => absurd ho.symm (by simpa using hne)⟩
    · intro hx
      obtain ⟨hm, ho⟩ := hx
      refine ⟨?_, hm⟩
      have hne : node ≠ other := by
        intro hx
        subst hx
        exact hn (ho rfl)
      simpa using hne

/-- Two nodes freed in turn leave no other node without a reference. -/
theorem Laid.tight_releaseNodes (h : w.Laid) {a b : Node}
    (hr : ∀ node ∈ w.places, node ≠ a → node ≠ b → w.Referenced node) :
    ((w.releaseNode a).releaseNode b).Tight := by
  intro node hn
  have ha := h.releaseNode a
  rw [ha.referenced_releaseNode, h.referenced_releaseNode]
  obtain ⟨hn, hb⟩ := ha.mem_places_releaseNode.mp hn
  obtain ⟨hn, ha⟩ := h.mem_places_releaseNode.mp hn
  by_cases hna : node = a
  · exact ha hna
  by_cases hnb : node = b
  · exact (h.referenced_releaseNode a).mp (hb hnb)
  exact hr node hn hna hnb

theorem foldl_dropArc_eq (numbers : List Nat) (w : Wiring) :
    ∃ arcs recent, numbers.foldl Wiring.dropArc w = { w with arcs := arcs, recent := recent } := by
  induction numbers generalizing w with
  | nil => exact ⟨w.arcs, w.recent, rfl⟩
  | cons k rest ih =>
    obtain ⟨arcs, recent, he⟩ := ih (w.dropArc k)
    exact ⟨arcs, recent, he⟩

theorem Laid.foldl_dropArc (h : w.Laid) (numbers : List Nat) :
    (numbers.foldl Wiring.dropArc w).Laid := by
  induction numbers generalizing w with
  | nil => exact h
  | cons k rest ih => exact ih (h.dropArc k)

theorem getElem?_edges_foldl_dropArc (numbers : List Nat) (w : Wiring) (k : Nat) :
    (numbers.foldl Wiring.dropArc w).edges[k]? = if k ∈ numbers then none else w.edges[k]? := by
  induction numbers generalizing w with
  | nil => simp only [List.foldl_nil, List.not_mem_nil, if_false]
  | cons j rest ih =>
    rw [List.foldl_cons, ih, edges_dropArc, ExtTreeMap.getElem?_erase]
    simp only [List.mem_cons, Std.compare_eq_iff_eq]
    grind

end Switchyard.Wiring
