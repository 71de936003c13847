import Mathlib.Order.BooleanAlgebra.Set
import Switchyard.Listing
import Switchyard.Proofs.Wiring

namespace Switchyard

open Std

def Switch.Meets (s : Switch) (node : Node) : Prop :=
  s.edge.touches node

theorem Switch.meets_iff {s : Switch} {node : Node} :
    s.Meets node ↔ s.node1 = node ∨ s.node2 = node := by
  simp [Meets, Edge.touches, edge]

namespace Wiring

/-- Some of the switches or of the terminals are at the node. -/
def Occupied (S : Set Switch) (T : Set (Node × Attachment)) (node : Node) : Prop :=
  (∃ s ∈ S, s.Meets node) ∨ ∃ a, (node, a) ∈ T

/-- The second wiring has the switches `S` and the terminals `T` besides the
switches, edges and terminals of the first one. -/
structure Carries (w : Wiring) (S : Set Switch) (T : Set (Node × Attachment)) (w' : Wiring) :
    Prop where
  switch_old : ∀ id, (∀ s ∈ S, s.id ≠ id) → w'.switches[id]? = w.switches[id]?
  switch_new : ∀ s ∈ S, w'.switches[s.id]? = some s ∧ s.id ∉ w.switches
  edge_iff : ∀ (k : Nat) e, (∀ s ∈ S, e.link ≠ .switch s.id) →
    (w'.edges[k]? = some e ↔ w.edges[k]? = some e)
  terminal_old : ∀ node, (∀ a, (node, a) ∉ T) → w'.terminals[node]? = w.terminals[node]?
  terminal_new : ∀ node a, (node, a) ∈ T → w'.terminals[node]? = some a ∧ node ∉ w.terminals

/-- The second wiring is the first one with the switches `S`, the terminals `T`
and their nodes besides. -/
structure Augmented (w : Wiring) (S : Set Switch) (T : Set (Node × Attachment)) (w' : Wiring) :
    Prop extends Carries w S T w' where
  place_iff : ∀ node, node ∈ w'.places ↔ node ∈ w.places ∨ Occupied S T node

variable {w w' u : Wiring} {S : Set Switch} {T : Set (Node × Attachment)} {s : Switch} {node : Node}
  {a : Attachment}

theorem occupied_union {S S' : Set Switch} {T T' : Set (Node × Attachment)} {node : Node} :
    Occupied (S ∪ S') (T ∪ T') node ↔ Occupied S T node ∨ Occupied S' T' node := by
  simp only [Occupied, Set.mem_union, or_and_right, exists_or]
  grind

theorem occupied_insert_switch :
    Occupied (insert s S) T node ↔ Occupied S T node ∨ s.Meets node := by
  simp only [Occupied, Set.mem_insert_iff, exists_eq_or_imp]
  grind

theorem occupied_insert_terminal {other : Node} :
    Occupied S (insert (other, a) T) node ↔ Occupied S T node ∨ node = other := by
  simp only [Occupied, Set.mem_insert_iff, Prod.mk.injEq]
  grind

theorem Augmented.refl (w : Wiring) : w.Augmented ∅ ∅ w := by
  have hnone : ∀ node, ¬Occupied ∅ ∅ node := by simp [Occupied]
  exact ⟨⟨fun _ _ => rfl, by simp, fun _ _ _ => Iff.rfl, fun _ _ => rfl, by simp⟩,
    by simp [hnone]⟩

theorem attach_eq_ok :
    w.attach node a = .ok u ↔ node ∉ w.terminals ∧
      u = { w.ensureNode node with terminals := w.terminals.insert node a } := by
  unfold attach
  cases hn : w.terminals[node]? with
  | some b =>
    have hm : node ∈ w.terminals := mem_iff_exists_getElem?.mpr ⟨b, hn⟩
    simp [hm]
  | none =>
    have hm : node ∉ w.terminals := by simpa using hn
    simp [hm, eq_comm]

/-- Detaching leaves nothing behind at a node, unless something else refers to it. -/
theorem Sound.referenced_detach (hw : w.Sound) {other : Node}
    (hheld : node ≠ other → node ∈ w.places → w.Referenced node)
    (hp : node ∈ (w.detach other).places) : (w.detach other).Referenced node := by
  have hlaid := (hw.eraseTerminal other).toLaid
  obtain ⟨hplaced, hrest⟩ := hlaid.mem_places_releaseNode.mp hp
  refine (hlaid.referenced_releaseNode other).mpr ?_
  by_cases he : node = other
  · exact hrest he
  · refine (hheld he hplaced).imp_left fun hm => ?_
    exact ExtTreeMap.mem_erase.mpr ⟨by simpa using Ne.symm he, hm⟩

namespace Carries

theorem edge_of_link (h : w.Carries S T w') (hw' : w'.Sound) (hs : s ∈ S) {k : Nat} {e : Edge}
    (he : w'.edges[k]? = some e) (hl : e.link = .switch s.id) : e = s.edge := by
  obtain ⟨t, ht, rfl⟩ := hw'.switch_of_edge he hl
  rw [(h.switch_new s hs).1] at ht
  rw [Option.some.inj ht]

theorem edge_kept (h : w.Carries S T w') (hw : w.Sound) {k : Nat} {e : Edge}
    (he : w.edges[k]? = some e) : w'.edges[k]? = some e := by
  refine (h.edge_iff k e fun s hs hl => ?_).mpr he
  obtain ⟨t, ht, -⟩ := hw.switch_of_edge he hl
  exact (h.switch_new s hs).2 (mem_iff_exists_getElem?.mpr ⟨t, ht⟩)

theorem mem_edgeList_iff (h : w.Carries S T w') (hw : w.Sound) (hw' : w'.Sound) {e : Edge} :
    e ∈ w'.edgeList ↔ e ∈ w.edgeList ∨ ∃ s ∈ S, e = s.edge := by
  constructor
  · intro he
    obtain ⟨k, hk⟩ := mem_values_iff.mp he
    by_cases hs : ∃ s ∈ S, e.link = .switch s.id
    · obtain ⟨s, hs, hl⟩ := hs
      exact Or.inr ⟨s, hs, h.edge_of_link hw' hs hk hl⟩
    · exact Or.inl (mem_values_iff.mpr ⟨k, (h.edge_iff k e fun s hs' hl => hs ⟨s, hs', hl⟩).mp hk⟩)
  · rintro (he | ⟨s, hs, rfl⟩)
    · obtain ⟨k, hk⟩ := mem_values_iff.mp he
      exact mem_values_iff.mpr ⟨k, h.edge_kept hw hk⟩
    · obtain ⟨k, -, hk⟩ := hw'.edge_of_switch (h.switch_new s hs).1
      exact mem_values_iff.mpr ⟨k, hk⟩

theorem mem_terminals_iff (h : w.Carries S T w') :
    node ∈ w'.terminals ↔ node ∈ w.terminals ∨ ∃ a, (node, a) ∈ T := by
  by_cases ht : ∃ a, (node, a) ∈ T
  · obtain ⟨a, ha⟩ := ht
    have hn := (h.terminal_new node a ha).1
    exact ⟨fun _ => Or.inr ⟨a, ha⟩, fun _ => mem_iff_exists_getElem?.mpr ⟨a, hn⟩⟩
  · have hold := h.terminal_old node fun a ha => ht ⟨a, ha⟩
    rw [ExtTreeMap.mem_iff_isSome_getElem?, ExtTreeMap.mem_iff_isSome_getElem?, hold]
    simp [ht]

theorem referenced_iff (h : w.Carries S T w') (hw : w.Sound) (hw' : w'.Sound) :
    w'.Referenced node ↔ w.Referenced node ∨ Occupied S T node := by
  unfold Referenced Occupied
  rw [h.mem_terminals_iff]
  constructor
  · rintro ((ht | ht) | ⟨k, e, he, ht⟩)
    · exact Or.inl (Or.inl ht)
    · exact Or.inr (Or.inr ht)
    · by_cases hl : ∃ s ∈ S, e.link = .switch s.id
      · obtain ⟨s, hs, hl⟩ := hl
        have heq := h.edge_of_link hw' hs he hl
        subst heq
        exact Or.inr (Or.inl ⟨s, hs, ht⟩)
      · have hold := (h.edge_iff k e fun s hs hx => hl ⟨s, hs, hx⟩).mp he
        exact Or.inl (Or.inr ⟨k, e, hold, ht⟩)
  · rintro ((ht | ⟨k, e, he, ht⟩) | ⟨s, hs, ht⟩ | ht)
    · exact Or.inl (Or.inl ht)
    · exact Or.inr ⟨k, e, h.edge_kept hw he, ht⟩
    · obtain ⟨k, -, he⟩ := hw'.edge_of_switch (h.switch_new s hs).1
      exact Or.inr ⟨k, s.edge, he, ht⟩
    · exact Or.inl (Or.inr ht)

/-- What is carried does not depend on the nodes that are there. -/
theorem congr (h : w.Carries S T w') (he : u.edges = w'.edges) (hs : u.switches = w'.switches)
    (ht : u.terminals = w'.terminals) : w.Carries S T u where
  switch_old := by simpa only [hs] using h.switch_old
  switch_new := by simpa only [hs] using h.switch_new
  edge_iff := by simpa only [he] using h.edge_iff
  terminal_old := by simpa only [ht] using h.terminal_old
  terminal_new := by simpa only [ht] using h.terminal_new

theorem connections_eq (h : w.Carries S T w') : w'.connections = w.connections := by
  have hlist : w'.edgeList.filter (·.link = .connection) =
      w.edgeList.filter (·.link = .connection) := by
    refine filter_values_congr fun k e he => h.edge_iff k e fun s _ hl => ?_
    rw [hl] at he
    simp at he
  rw [connections, hlist, connections]

theorem terminals_eq (h : w.Carries S T w') {S' : Set Switch} (h' : w.Carries S' T u) :
    w'.terminals = u.terminals := by
  apply ExtTreeMap.ext_getElem?
  intro node
  by_cases ht : ∃ a, (node, a) ∈ T
  · obtain ⟨a, ha⟩ := ht
    rw [(h.terminal_new node a ha).1, (h'.terminal_new node a ha).1]
  · have hnone : ∀ a, (node, a) ∉ T := fun a ha => ht ⟨a, ha⟩
    rw [h.terminal_old node hnone, h'.terminal_old node hnone]

theorem getElem?_switches (h : w.Carries S T w') {id : String} :
    w'.switches[id]? = some s ↔ w.switches[id]? = some s ∨ s ∈ S ∧ s.id = id := by
  by_cases hs : ∃ t ∈ S, t.id = id
  · obtain ⟨t, ht, rfl⟩ := hs
    obtain ⟨hnew, hnot⟩ := h.switch_new t ht
    rw [hnew, ExtTreeMap.getElem?_eq_none hnot]
    constructor
    · intro he
      cases he
      exact Or.inr ⟨ht, rfl⟩
    · rintro (he | ⟨hs, hid⟩)
      · cases he
      · rw [← hnew, ← hid]
        exact (h.switch_new s hs).1
  · rw [h.switch_old id fun t ht hid => hs ⟨t, ht, hid⟩]
    constructor
    · exact Or.inl
    · rintro (he | hx)
      · exact he
      · exact absurd ⟨s, hx⟩ hs

theorem switches_eq (h : w.Carries S T w') {T' : Set (Node × Attachment)} (h' : w.Carries S T' u) :
    w'.switches = u.switches := by
  apply ExtTreeMap.ext_getElem?
  intro id
  apply Option.ext
  intro s
  rw [h.getElem?_switches, h'.getElem?_switches]

theorem eq_of_id (h : w.Carries S T w') (hs : s ∈ S) {t : Switch} (ht : t ∈ S)
    (hid : t.id = s.id) : t = s := by
  have hts := (h.switch_new t ht).1
  rw [hid, (h.switch_new s hs).1] at hts
  exact (Option.some.inj hts).symm

theorem withoutSwitch (h : w.Carries S T w') (hw : w.Sound) (hw' : w'.Sound) (hs : s ∈ S)
    {number : Nat} (hn : w'.switchArcs[s.id]? = some number)
    (he : w'.edges[number]? = some s.edge) :
    w.Carries (S \ {s}) T (w'.withoutSwitch number s.id) where
  switch_old := by
    intro id hid
    simp only [Wiring.withoutSwitch, ExtTreeMap.getElem?_erase, Std.compare_eq_iff_eq]
    split
    next hx =>
      subst hx
      exact (ExtTreeMap.getElem?_eq_none (h.switch_new s hs).2).symm
    next hx =>
      refine h.switch_old id fun t ht hid' => ?_
      by_cases hts : t = s
      · exact hx (hts ▸ hid')
      · exact hid t ⟨ht, hts⟩ hid'
  switch_new := by
    rintro t ⟨ht, hts⟩
    have hid : s.id ≠ t.id := fun hx => hts (h.eq_of_id hs ht hx.symm)
    simp only [Wiring.withoutSwitch, ExtTreeMap.getElem?_erase, Std.compare_eq_iff_eq, hid,
      if_false]
    exact h.switch_new t ht
  edge_iff := by
    intro k e hx
    rw [edges_withoutSwitch, ExtTreeMap.getElem?_erase]
    simp only [Std.compare_eq_iff_eq]
    by_cases hl : e.link = .switch s.id
    · -- Neither wiring has an edge of the removed switch.
      constructor
      · intro hk
        split at hk
        next => cases hk
        next hne =>
          have hk' := (hw'.switchArc_iff s.id k).mpr ⟨e, hk, hl⟩
          exact absurd (Option.some.inj (hn.symm.trans hk')) hne
      · intro hk
        obtain ⟨t, ht, -⟩ := hw.switch_of_edge hk hl
        exact absurd (mem_iff_exists_getElem?.mpr ⟨t, ht⟩) (h.switch_new s hs).2
    · rw [← h.edge_iff k e fun t ht hx' => ?_]
      · split
        next hk =>
          subst hk
          simp only [he, Option.some.injEq, reduceCtorEq, false_iff]
          rintro rfl
          exact hl rfl
        next => rfl
      · by_cases hts : t = s
        · exact hl (hts ▸ hx')
        · exact hx t ⟨ht, hts⟩ hx'
  terminal_old := h.terminal_old
  terminal_new := h.terminal_new

theorem eraseTerminal (h : w.Carries S T w') (ht : (node, a) ∈ T) :
    w.Carries S (T \ {(node, a)}) { w' with terminals := w'.terminals.erase node } where
  switch_old := h.switch_old
  switch_new := h.switch_new
  edge_iff := h.edge_iff
  terminal_old := by
    intro other ho
    simp only [ExtTreeMap.getElem?_erase, Std.compare_eq_iff_eq]
    split
    next he =>
      subst he
      exact (ExtTreeMap.getElem?_eq_none (h.terminal_new _ _ ht).2).symm
    next he =>
      refine h.terminal_old other fun b hb => ho b ⟨hb, fun hx => he ?_⟩
      exact (congrArg Prod.fst hx).symm
  terminal_new := by
    rintro other b ⟨hb, hne⟩
    have he : node ≠ other := by
      rintro rfl
      have hn := (h.terminal_new node b hb).1
      rw [(h.terminal_new node a ht).1] at hn
      exact hne (by rw [Option.some.inj hn]; rfl)
    simp only [ExtTreeMap.getElem?_erase, Std.compare_eq_iff_eq, he, if_false]
    exact h.terminal_new other b hb

end Carries

namespace Augmented

/-- Nodes that lost a switch or a terminal go if nothing refers to them. Those of the
first wiring stay, as something else does. -/
theorem of_released (h : w.Augmented S T w') (hw : w.Sound) {v : Wiring} {S' : Set Switch}
    {T' : Set (Node × Attachment)} (hv : w.Carries S' T' v) (hsound : v.Sound) {p : Node → Prop}
    (hlost : ∀ node, Occupied S T node ↔ Occupied S' T' node ∨ p node)
    (hheld : ∀ node, p node → node ∈ w.places → w.Referenced node)
    (hplaces : v.places = w'.places)
    (hu : u.edges = v.edges ∧ u.switches = v.switches ∧ u.terminals = v.terminals)
    (hrelease : ∀ node, node ∈ u.places ↔ node ∈ v.places ∧ (p node → v.Referenced node)) :
    w.Augmented S' T' u where
  toCarries := hv.congr hu.1 hu.2.1 hu.2.2
  place_iff := by
    intro node
    rw [hrelease, hplaces, h.place_iff, hlost, hv.referenced_iff hw hsound]
    constructor
    · rintro ⟨hp | ho | hf, hr⟩
      · exact Or.inl hp
      · exact Or.inr ho
      · exact (hr hf).imp_left hw.placed_of_referenced
    · rintro (hp | ho)
      · exact ⟨Or.inl hp, fun hf => Or.inl (hheld node hf hp)⟩
      · exact ⟨Or.inr (Or.inl ho), fun _ => Or.inr ho⟩

theorem addSwitch (h : w.Augmented S T w') (hw' : w'.Sound) (hne : s.node1 ≠ s.node2)
    (hnew : s.id ∉ w'.switches) : w.Augmented (insert s S) T (w'.addSwitch s) where
  switch_old := by
    intro id hid
    have hs : s.id ≠ id := hid s (Set.mem_insert s S)
    rw [switches_addSwitch, ExtTreeMap.getElem?_insert]
    simp only [Std.compare_eq_iff_eq, hs, if_false]
    exact h.switch_old id fun t ht => hid t (Set.mem_insert_of_mem s ht)
  switch_new := by
    have hold : ∀ t ∈ S, t.id ≠ s.id := by
      intro t ht he
      exact hnew (he ▸ mem_iff_exists_getElem?.mpr ⟨t, (h.switch_new t ht).1⟩)
    intro t ht
    rw [switches_addSwitch, ExtTreeMap.getElem?_insert]
    simp only [Std.compare_eq_iff_eq]
    rcases Set.mem_insert_iff.mp ht with rfl | ht
    · refine ⟨if_pos rfl, fun hm => hnew ?_⟩
      rw [ExtTreeMap.mem_iff_isSome_getElem?, h.switch_old _ hold]
      exact ExtTreeMap.mem_iff_isSome_getElem?.mp hm
    · rw [if_neg (hold t ht).symm]
      exact h.switch_new t ht
  edge_iff := by
    intro k e he
    have hs : e ≠ s.edge := fun hx => he s (Set.mem_insert s S) (hx ▸ rfl)
    rw [edges_addSwitch hw'.toLaid, ExtTreeMap.getElem?_insert,
      ← h.edge_iff k e fun t ht => he t (Set.mem_insert_of_mem s ht)]
    simp only [Std.compare_eq_iff_eq]
    split
    next hk =>
      subst hk
      rw [w'.getElem?_edges_next]
      simp [Ne.symm hs]
    next => rfl
  terminal_old := by simpa only [terminals_addSwitch] using h.terminal_old
  terminal_new := by simpa only [terminals_addSwitch] using h.terminal_new
  place_iff := by
    intro node
    change node ∈ (w'.addEdge s.edge).places ↔ _
    rw [mem_places_addEdge, h.place_iff, occupied_insert_switch, Switch.meets_iff]
    simp only [Switch.edge]
    grind

theorem removeSwitch? (h : w.Augmented S T w') (hw : w.Sound) (hw' : w'.Sound) (hs : s ∈ S)
    (hheld : ∀ node, s.Meets node → node ∈ w.places → w.Referenced node) :
    ∃ u, w'.removeSwitch? s.id = some u ∧ w.Augmented (S \ {s}) T u := by
  obtain ⟨number, hn, he, hu⟩ := hw'.removeSwitch?_eq (h.switch_new s hs).1
  refine ⟨_, hu, ?_⟩
  have hv := hw'.withoutSwitch hn
  have hlost : ∀ node, Occupied S T node ↔ Occupied (S \ {s}) T node ∨ s.Meets node := by
    intro node
    rw [← occupied_insert_switch, Set.insert_sdiff_singleton, Set.insert_eq_of_mem hs]
  refine h.of_released hw (h.withoutSwitch hw hw' hs hn he) hv hlost hheld rfl ?_ fun node => ?_
  · refine ⟨?_, by simp, by simp⟩
    rw [(hv.toLaid.releaseNode s.node1).edges_releaseNode, hv.toLaid.edges_releaseNode]
  · rw [(hv.toLaid.releaseNode s.node1).mem_places_releaseNode,
      hv.toLaid.mem_places_releaseNode, hv.toLaid.referenced_releaseNode, Switch.meets_iff]
    grind

theorem attach (h : w.Augmented S T w') (hw' : w'.Sound) (hok : w'.attach node a = .ok u) :
    w.Augmented S (insert (node, a) T) u := by
  obtain ⟨hn, rfl⟩ := attach_eq_ok.mp hok
  have hfree : node ∉ w.terminals ∧ ∀ b, (node, b) ∉ T := by
    rw [h.mem_terminals_iff] at hn
    exact ⟨fun hm => hn (Or.inl hm), fun b hb => hn (Or.inr ⟨b, hb⟩)⟩
  have hedges : ({ w'.ensureNode node with
      terminals := w'.terminals.insert node a } : Wiring).edges = w'.edges :=
    hw'.toLaid.edges_ensureNode node
  refine ⟨⟨?_, ?_, ?_, ?_, ?_⟩, ?_⟩
  · simpa only [switches_ensureNode] using h.switch_old
  · simpa only [switches_ensureNode] using h.switch_new
  · simpa only [hedges] using h.edge_iff
  · intro other ho
    have hne : node ≠ other := by
      rintro rfl
      exact ho a (Set.mem_insert _ T)
    simp only [ExtTreeMap.getElem?_insert, Std.compare_eq_iff_eq, hne, if_false]
    exact h.terminal_old other fun b hb => ho b (Set.mem_insert_of_mem _ hb)
  · intro other b hb
    simp only [ExtTreeMap.getElem?_insert, Std.compare_eq_iff_eq]
    rcases Set.mem_insert_iff.mp hb with he | hb
    · cases he
      exact ⟨if_pos rfl, hfree.1⟩
    · have hne : node ≠ other := by
        rintro rfl
        exact hfree.2 b hb
      rw [if_neg hne]
      exact h.terminal_new other b hb
  · intro other
    change other ∈ (w'.ensureNode node).places ↔ _
    rw [mem_places_ensureNode, h.place_iff, occupied_insert_terminal]
    grind

theorem detach (h : w.Augmented S T w') (hw : w.Sound) (hw' : w'.Sound) (ht : (node, a) ∈ T)
    (hheld : node ∈ w.places → w.Referenced node) :
    w.Augmented S (T \ {(node, a)}) (w'.detach node) := by
  have hsound := hw'.eraseTerminal node
  have hlost : ∀ other, Occupied S T other ↔
      Occupied S (T \ {(node, a)}) other ∨ other = node := by
    intro other
    rw [← occupied_insert_terminal (a := a), Set.insert_sdiff_singleton, Set.insert_eq_of_mem ht]
  refine h.of_released hw (h.eraseTerminal ht) hsound hlost (fun _ he => he ▸ hheld) rfl ?_
    fun other => ?_
  · exact ⟨hsound.toLaid.edges_releaseNode node, switches_releaseNode _ node,
      terminals_releaseNode _ node⟩
  · exact hsound.toLaid.mem_places_releaseNode

/-- A wiring is what is left without a terminal, with that terminal besides. -/
theorem of_detach (hw : w.Sound) (ht : w.terminals[node]? = some a) :
    (w.detach node).Augmented ∅ {(node, a)} w := by
  have hsound := hw.eraseTerminal node
  have hedges : (w.detach node).edges = w.edges := hsound.toLaid.edges_releaseNode node
  refine ⟨⟨?_, by simp, ?_, ?_, ?_⟩, ?_⟩
  · simp
  · simp [hedges]
  · intro other ho
    have hne : node ≠ other := fun he => ho a (by simp [he])
    simp [ExtTreeMap.getElem?_erase, hne]
  · rintro other b hb
    cases hb
    simp [ht]
  · intro other
    rw [Wiring.detach, hsound.toLaid.mem_places_releaseNode]
    change _ ↔ (other ∈ w.places ∧ _) ∨ _
    have hplaced : node ∈ w.places :=
      hw.terminal_placed node (mem_iff_exists_getElem?.mpr ⟨a, ht⟩)
    simp only [Occupied, Set.mem_empty_iff_false, Set.mem_singleton_iff, Prod.mk.injEq]
    grind

theorem trans (h : w.Augmented S T w') {S' : Set Switch} {T' : Set (Node × Attachment)}
    (h' : w'.Augmented S' T' u) : w.Augmented (S ∪ S') (T ∪ T') u where
  switch_old := by
    intro id hid
    rw [h'.switch_old id fun s hs => hid s (Or.inr hs)]
    exact h.switch_old id fun s hs => hid s (Or.inl hs)
  switch_new := by
    rintro s (hs | hs)
    · obtain ⟨hnew, hnot⟩ := h.switch_new s hs
      refine ⟨?_, hnot⟩
      rw [h'.switch_old s.id, hnew]
      intro t ht he
      exact (h'.switch_new t ht).2 (he ▸ mem_iff_exists_getElem?.mpr ⟨s, hnew⟩)
    · obtain ⟨hnew, hnot⟩ := h'.switch_new s hs
      refine ⟨hnew, fun hm => hnot ?_⟩
      obtain ⟨t, ht⟩ := mem_iff_exists_getElem?.mp hm
      exact mem_iff_exists_getElem?.mpr ⟨t, h.getElem?_switches.mpr (Or.inl ht)⟩
  edge_iff := by
    intro k e he
    rw [h'.edge_iff k e fun s hs => he s (Or.inr hs)]
    exact h.edge_iff k e fun s hs => he s (Or.inl hs)
  terminal_old := by
    intro node ht
    rw [h'.terminal_old node fun a ha => ht a (Or.inr ha)]
    exact h.terminal_old node fun a ha => ht a (Or.inl ha)
  terminal_new := by
    rintro node a (ht | ht)
    · obtain ⟨hnew, hnot⟩ := h.terminal_new node a ht
      refine ⟨?_, hnot⟩
      rw [h'.terminal_old node, hnew]
      intro b hb
      exact (h'.terminal_new node b hb).2 (mem_iff_exists_getElem?.mpr ⟨a, hnew⟩)
    · obtain ⟨hnew, hnot⟩ := h'.terminal_new node a ht
      exact ⟨hnew, fun hm => hnot (h.mem_terminals_iff.mpr (Or.inl hm))⟩
  place_iff := by
    intro node
    rw [h'.place_iff, h.place_iff, occupied_union, or_assoc]

theorem nodes_eq (h : w.Augmented S T w') {S' : Set Switch} (h' : w.Augmented S' T u)
    (hnodes : ∀ node, (∃ s ∈ S, s.Meets node) ↔ ∃ s ∈ S', s.Meets node) : w'.nodes = u.nodes := by
  apply ExtTreeSet.ext_mem
  intro node
  rw [mem_nodes, mem_nodes, h.place_iff, h'.place_iff, Occupied, Occupied, hnodes]

end Augmented

end Wiring

end Switchyard
