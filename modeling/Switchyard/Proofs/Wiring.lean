import Switchyard.Proofs.Graph

namespace Switchyard.Wiring

open Std

variable [Numbering] {w : Wiring}

/-- The switches, the arcs kept for them and the edges of switches tell of the
same switches, each joined between its own nodes. -/
structure Sound (w : Wiring) : Prop extends Laid w where
  switchArc_iff : ∀ (id : String) (k : Nat), w.switchArcs[id]? = some k ↔
    ∃ e, w.edges[k]? = some e ∧ e.link = .switch id
  mem_switches_iff : ∀ id, id ∈ w.switches ↔ id ∈ w.switchArcs
  switch_edge : ∀ (id : String) s, w.switches[id]? = some s → s.id = id ∧
    ∀ k, w.switchArcs[id]? = some k → w.edges[k]? = some s.edge

theorem Sound.empty : Sound {} := by
  refine ⟨Laid.empty, ?_, ?_, ?_⟩ <;> simp

/-- A switch has an arc that carries its id and joins its nodes. -/
theorem Sound.edge_of_switch (h : w.Sound) {id : String} {s : Switch}
    (hs : w.switches[id]? = some s) :
    ∃ k, w.switchArcs[id]? = some k ∧ w.edges[k]? = some s.edge := by
  have hm := (h.mem_switches_iff id).mp (mem_iff_exists_getElem?.mpr ⟨s, hs⟩)
  obtain ⟨k, hk⟩ := mem_iff_exists_getElem?.mp hm
  exact ⟨k, hk, (h.switch_edge id s hs).2 k hk⟩

theorem Sound.switch_of_edge (h : w.Sound) {k : Nat} {e : Edge} {id : String}
    (he : w.edges[k]? = some e) (hl : e.link = .switch id) :
    ∃ s, w.switches[id]? = some s ∧ s.edge = e := by
  have hk := (h.switchArc_iff id k).mpr ⟨e, he, hl⟩
  have hm := (h.mem_switches_iff id).mpr (mem_iff_exists_getElem?.mpr ⟨k, hk⟩)
  obtain ⟨s, hs⟩ := mem_iff_exists_getElem?.mp hm
  exact ⟨s, hs, Option.some.inj (((h.switch_edge id s hs).2 k hk).symm.trans he)⟩

/-- What keeps the edges and the switch maps keeps the switches in step. -/
theorem Sound.congr {w' : Wiring} (h : w.Sound) (hl : w'.Laid) (he : w'.edges = w.edges)
    (hs : w'.switches = w.switches) (ha : w'.switchArcs = w.switchArcs) : w'.Sound where
  toLaid := hl
  switchArc_iff := by simpa only [he, ha] using h.switchArc_iff
  mem_switches_iff := by simpa only [hs, ha] using h.mem_switches_iff
  switch_edge := by simpa only [he, hs, ha] using h.switch_edge

theorem addSwitch_laid (h : w.Laid) {s : Switch} (hne : s.node1 ≠ s.node2) :
    (w.addSwitch s).Laid :=
  let ha := h.addEdge (e := s.edge) hne
  ⟨ha.place_iff, ha.source_mem, ha.target_mem, ha.apart, ha.recent_mem, ha.terminal_placed⟩

theorem edges_addSwitch (h : w.Laid) (s : Switch) :
    (w.addSwitch s).edges = w.edges.insert w.arcs.next s.edge :=
  h.edges_addEdge s.edge

theorem Sound.addSwitch (h : w.Sound) {s : Switch} (hne : s.node1 ≠ s.node2)
    (hnew : s.id ∉ w.switches) : (w.addSwitch s).Sound where
  toLaid := addSwitch_laid h.toLaid hne
  switchArc_iff := by
    intro id k
    have hfree : ∀ e, w.edges[k]? = some e → e.link ≠ .switch s.id := by
      intro e he hl
      obtain ⟨t, ht, -⟩ := h.switch_of_edge he hl
      exact hnew (mem_iff_exists_getElem?.mpr ⟨t, ht⟩)
    have hnext := w.getElem?_edges_next
    have hi := h.switchArc_iff id k
    rw [edges_addSwitch h.toLaid]
    simp only [Wiring.addSwitch, ExtTreeMap.getElem?_insert, Std.compare_eq_iff_eq]
    have hlink : s.edge.link = .switch s.id := rfl
    grind
  mem_switches_iff := by
    intro id
    simp only [Wiring.addSwitch, ExtTreeMap.mem_insert, h.mem_switches_iff]
  switch_edge := by
    intro id t ht
    rw [edges_addSwitch h.toLaid]
    simp only [Wiring.addSwitch, ExtTreeMap.getElem?_insert, Std.compare_eq_iff_eq] at ht ⊢
    by_cases hid : s.id = id
    · rw [if_pos hid] at ht
      have heq := Option.some.inj ht
      subst heq
      refine ⟨hid, fun k hk => ?_⟩
      rw [if_pos hid] at hk
      rw [if_pos (Option.some.inj hk)]
    · rw [if_neg hid] at ht
      refine ⟨(h.switch_edge id t ht).1, fun k hk => ?_⟩
      rw [if_neg hid] at hk
      have hkept := (h.switch_edge id t ht).2 k hk
      have hk : w.arcs.next ≠ k := by
        intro hx
        subst hx
        rw [w.getElem?_edges_next] at hkept
        cases hkept
      rw [if_neg hk, hkept]

theorem tight_addSwitch (h : w.Laid) (ht : w.Tight) (s : Switch) : (w.addSwitch s).Tight := by
  intro node hn
  exact (referenced_congr (w := w.addEdge s.edge) rfl rfl).mpr (h.tight_addEdge ht s.edge node hn)

@[simp] theorem switches_addSwitch (w : Wiring) (s : Switch) :
    (w.addSwitch s).switches = w.switches.insert s.id s :=
  rfl

@[simp] theorem terminals_addSwitch (w : Wiring) (s : Switch) :
    (w.addSwitch s).terminals = w.terminals :=
  w.terminals_addEdge s.edge

/-- What is left of a wiring when the arc of a switch is gone, but its ends not yet. -/
def withoutSwitch (w : Wiring) (number : Nat) (id : String) : Wiring :=
  { w.dropArc number with
    switchArcs := w.switchArcs.erase id
    switches := w.switches.erase id }

theorem edges_withoutSwitch (w : Wiring) (number : Nat) (id : String) :
    (w.withoutSwitch number id).edges = w.edges.erase number :=
  w.edges_dropArc number

theorem Sound.removeSwitch?_eq (h : w.Sound) {id : String} {s : Switch}
    (hs : w.switches[id]? = some s) :
    ∃ number, w.switchArcs[id]? = some number ∧ w.edges[number]? = some s.edge ∧
      w.removeSwitch? id =
        some (((w.withoutSwitch number id).releaseNode s.node1).releaseNode s.node2) := by
  obtain ⟨number, hn, he⟩ := h.edge_of_switch hs
  refine ⟨number, hn, he, ?_⟩
  simp only [removeSwitch?, hn, hs, Option.bind_eq_bind, Option.bind_some]
  rfl

theorem Sound.withoutSwitch (h : w.Sound) {id : String} {number : Nat}
    (hn : w.switchArcs[id]? = some number) : (w.withoutSwitch number id).Sound where
  toLaid :=
    let hd := h.dropArc number
    ⟨hd.place_iff, hd.source_mem, hd.target_mem, hd.apart, hd.recent_mem, hd.terminal_placed⟩
  switchArc_iff := by
    intro other k
    have hi := h.switchArc_iff other k
    obtain ⟨e, he, hl⟩ := (h.switchArc_iff id number).mp hn
    rw [edges_withoutSwitch]
    simp only [Wiring.withoutSwitch, ExtTreeMap.getElem?_erase, Std.compare_eq_iff_eq]
    by_cases hid : id = other
    · rw [if_pos hid]
      constructor
      · intro hk
        cases hk
      · intro hx
        obtain ⟨f, hf, hm⟩ := hx
        split at hf
        next => cases hf
        next hne =>
          have hk : w.switchArcs[id]? = some k := hid ▸ hi.mpr ⟨f, hf, hm⟩
          exact absurd (Option.some.inj (hn.symm.trans hk)) hne
    · rw [if_neg hid, hi]
      constructor
      · intro hx
        obtain ⟨f, hf, hm⟩ := hx
        -- The arc dropped carries another id.
        have hne : number ≠ k := by
          intro hnk
          rw [← hnk, he] at hf
          rw [← Option.some.inj hf, hl] at hm
          exact hid (Link.switch.inj hm)
        exact ⟨f, by rw [if_neg hne, hf], hm⟩
      · intro hx
        obtain ⟨f, hf, hm⟩ := hx
        split at hf
        next => cases hf
        next => exact ⟨f, hf, hm⟩
  mem_switches_iff := by
    intro other
    simp only [Wiring.withoutSwitch, ExtTreeMap.mem_erase, h.mem_switches_iff]
  switch_edge := by
    intro other t ht
    rw [edges_withoutSwitch]
    simp only [Wiring.withoutSwitch, ExtTreeMap.getElem?_erase, Std.compare_eq_iff_eq] at ht ⊢
    split at ht
    next => cases ht
    next hid =>
      refine ⟨(h.switch_edge other t ht).1, fun k hk => ?_⟩
      rw [if_neg hid] at hk
      -- Two switches have two arcs.
      have hk' : number ≠ k := by
        intro hx
        subst hx
        obtain ⟨e, he, hl⟩ := (h.switchArc_iff id number).mp hn
        obtain ⟨f, hf, hm⟩ := (h.switchArc_iff other number).mp hk
        rw [Option.some.inj (he.symm.trans hf), hm] at hl
        exact hid (Link.switch.inj hl).symm
      rw [if_neg hk']
      exact (h.switch_edge other t ht).2 k hk

theorem Sound.releaseNode (h : w.Sound) (node : Node) : (w.releaseNode node).Sound :=
  h.congr (h.toLaid.releaseNode node) (h.edges_releaseNode node) (w.switches_releaseNode node)
    (w.switchArcs_releaseNode node)

/-- A switch leaves with its edge, and with those of its nodes that nothing else
refers to. -/
theorem Sound.removeSwitch? (h : w.Sound) {id : String} (hid : id ∈ w.switches) :
    ∃ w', w.removeSwitch? id = some w' ∧ w'.Sound ∧ w'.switches = w.switches.erase id ∧
      w'.terminals = w.terminals ∧ (w.Tight → w'.Tight) := by
  obtain ⟨s, hs⟩ := mem_iff_exists_getElem?.mp hid
  obtain ⟨number, hn, he, hw⟩ := h.removeSwitch?_eq hs
  have h1 := h.withoutSwitch hn
  refine ⟨_, hw, (h1.releaseNode _).releaseNode _, ?_, ?_, ?_⟩
  · simp only [switches_releaseNode]
    rfl
  · simp only [terminals_releaseNode]
    rfl
  · intro ht
    apply h1.tight_releaseNodes
    intro node hm hn1 hn2
    rcases ht node hm with hr | ⟨k, e, hk, hr⟩
    · exact Or.inl hr
    · refine Or.inr ⟨k, e, ?_, hr⟩
      have hne : number ≠ k := by
        intro hx
        subst hx
        have heq := Option.some.inj (he.symm.trans hk)
        subst heq
        have hr : s.node1 = node ∨ s.node2 = node := by simpa [Edge.touches, Switch.edge] using hr
        exact hr.elim (fun h => hn1 h.symm) fun h => hn2 h.symm
      rw [edges_withoutSwitch, ExtTreeMap.getElem?_erase]
      simpa only [Std.compare_eq_iff_eq, hne, if_false] using hk

theorem Sound.setSwitchOpen (h : w.Sound) (id : String) (isOpen : Bool) :
    (w.setSwitchOpen id isOpen).Sound where
  toLaid := ⟨h.place_iff, h.source_mem, h.target_mem, h.apart, h.recent_mem, h.terminal_placed⟩
  switchArc_iff := h.switchArc_iff
  mem_switches_iff := by
    intro other
    simpa only [Wiring.setSwitchOpen, ExtTreeMap.mem_modify] using h.mem_switches_iff other
  switch_edge := by
    intro other s hs
    simp only [Wiring.setSwitchOpen, ExtTreeMap.getElem?_modify] at hs
    split at hs
    next hid =>
      have heq := LawfulEqCmp.eq_of_compare hid
      subst heq
      obtain ⟨t, ht, rfl⟩ := Option.map_eq_some_iff.mp hs
      exact h.switch_edge id t ht
    next => exact h.switch_edge other s hs

theorem Sound.addConnection (h : w.Sound) {a b : Node} (hne : a ≠ b) :
    (w.addConnection a b).Sound where
  toLaid := h.addEdge hne
  switchArc_iff := by
    intro id k
    have hi := h.switchArc_iff id k
    have hnext := w.getElem?_edges_next
    rw [Wiring.addConnection, switchArcs_addEdge, h.edges_addEdge, ExtTreeMap.getElem?_insert]
    simp only [Std.compare_eq_iff_eq]
    grind
  mem_switches_iff := by
    intro id
    simpa only [Wiring.addConnection, switchArcs_addEdge, switches_addEdge] using
      h.mem_switches_iff id
  switch_edge := by
    intro id s hs
    simp only [Wiring.addConnection, switchArcs_addEdge, switches_addEdge] at hs ⊢
    refine ⟨(h.switch_edge id s hs).1, fun k hk => ?_⟩
    have hkept := (h.switch_edge id s hs).2 k hk
    have hk : w.arcs.next ≠ k := by
      intro hx
      subst hx
      rw [w.getElem?_edges_next] at hkept
      cases hkept
    rw [h.edges_addEdge, ExtTreeMap.getElem?_insert]
    simpa only [Std.compare_eq_iff_eq, hk, if_false] using hkept

theorem Laid.edge_of_mem_connectionsBetween (h : w.Laid) {a b : Node} {k : Nat}
    (hk : k ∈ w.connectionsBetween a b) :
    ∃ e, w.edges[k]? = some e ∧ e.link = .connection ∧
      (a ≠ b → ∀ node, e.touches node → node = a ∨ node = b) := by
  unfold connectionsBetween at hk
  split at hk
  next p q hp hq =>
    rw [Slots.mem_arrange] at hk
    simp only [List.mem_append, List.mem_filter] at hk
    obtain ⟨arc, ha, hl, hb, hs⟩ : ∃ arc, w.arcs.entries[k]? = some arc ∧
        arc.link = .connection ∧ arc.touches q ∧ (arc.source = p ∨ arc.target = p) := by
      cases ha : w.arcs.entries[k]? with
      | none => simp [ha] at hk
      | some arc =>
        simp only [ha, Bool.and_eq_true, decide_eq_true_eq, beq_iff_eq] at hk
        exact ⟨arc, rfl, by grind⟩
    refine ⟨w.edgeOf arc, by simp [ha], hl, fun hab node ht => ?_⟩
    have hpq : p ≠ q := fun he =>
      hab ((h.nodeAt_eq hp).symm.trans (he ▸ h.nodeAt_eq hq))
    have hb : arc.source = q ∨ arc.target = q := by simpa [Arc.touches] using hb
    have ht : w.nodeAt arc.source = node ∨ w.nodeAt arc.target = node := by
      simpa [Edge.touches, edgeOf] using ht
    have hpa := h.nodeAt_eq hp
    have hqb := h.nodeAt_eq hq
    grind
  next => simp at hk

theorem Sound.foldl_dropArc (h : w.Sound) {numbers : List Nat}
    (hn : ∀ k ∈ numbers, ∃ e, w.edges[k]? = some e ∧ e.link = .connection) :
    (numbers.foldl Wiring.dropArc w).Sound := by
  obtain ⟨arcs, recent, he⟩ := foldl_dropArc_eq numbers w
  have hs : (numbers.foldl Wiring.dropArc w).switches = w.switches := by rw [he]
  have ha : (numbers.foldl Wiring.dropArc w).switchArcs = w.switchArcs := by rw [he]
  -- The edge of a switch is not among those dropped.
  have hkept : ∀ (k : Nat) e (id : String), w.edges[k]? = some e → e.link = .switch id →
      (numbers.foldl Wiring.dropArc w).edges[k]? = some e := by
    intro k e id hk hl
    rw [getElem?_edges_foldl_dropArc, if_neg, hk]
    intro hm
    obtain ⟨f, hf, hc⟩ := hn k hm
    rw [Option.some.inj (hf.symm.trans hk), hl] at hc
    cases hc
  refine ⟨h.toLaid.foldl_dropArc numbers, ?_, by simpa only [hs, ha] using h.mem_switches_iff, ?_⟩
  · intro id k
    rw [ha, h.switchArc_iff]
    constructor
    · intro hx
      obtain ⟨e, hk, hl⟩ := hx
      exact ⟨e, hkept k e id hk hl, hl⟩
    · intro hx
      obtain ⟨e, hk, hl⟩ := hx
      rw [getElem?_edges_foldl_dropArc] at hk
      split at hk
      next => cases hk
      next => exact ⟨e, hk, hl⟩
  · intro id s hid
    rw [hs] at hid
    rw [ha]
    obtain ⟨hsid, hedge⟩ := h.switch_edge id s hid
    exact ⟨hsid, fun k hk => hkept k _ s.id (hedge k hk) rfl⟩

theorem Sound.removeConnections (h : w.Sound) (a b : Node) : (w.removeConnections a b).Sound := by
  unfold Wiring.removeConnections
  split
  next =>
    have hn : ∀ k ∈ w.connectionsBetween a b, ∃ e, w.edges[k]? = some e ∧ e.link = .connection := by
      intro k hk
      obtain ⟨e, he, hl, -⟩ := h.edge_of_mem_connectionsBetween hk
      exact ⟨e, he, hl⟩
    exact ((h.foldl_dropArc hn).releaseNode a).releaseNode b
  next => exact h

theorem Laid.places_removeConnections (h : w.Laid) (a b : Node) :
    ∀ node ∈ (w.removeConnections a b).places, node ∈ w.places := by
  intro node hnode
  unfold Wiring.removeConnections at hnode
  split at hnode
  next =>
    have hlaid := h.foldl_dropArc (w.connectionsBetween a b)
    have hnode := ((hlaid.releaseNode _).mem_places_releaseNode.mp hnode).1
    have hnode := (hlaid.mem_places_releaseNode.mp hnode).1
    obtain ⟨arcs, recent, he⟩ := foldl_dropArc_eq (w.connectionsBetween a b) w
    rwa [he] at hnode
  next => exact hnode

/-- Internal connections removed between two different nodes leave no other node
without a reference. -/
theorem Laid.tight_removeConnections (h : w.Laid) (ht : w.Tight) {a b : Node} (hne : a ≠ b) :
    (w.removeConnections a b).Tight := by
  unfold Wiring.removeConnections
  split
  next =>
    apply (h.foldl_dropArc _).tight_releaseNodes
    intro node hm hna hnb
    obtain ⟨arcs, recent, he⟩ := foldl_dropArc_eq (w.connectionsBetween a b) w
    have hm : node ∈ w.places := by simpa only [he] using hm
    rcases ht node hm with hr | ⟨k, e, hk, hr⟩
    · exact Or.inl (by simpa only [he] using hr)
    · refine Or.inr ⟨k, e, ?_, hr⟩
      rw [getElem?_edges_foldl_dropArc, if_neg, hk]
      intro hmem
      obtain ⟨f, hf, -, hends⟩ := h.edge_of_mem_connectionsBetween hmem
      have heq := Option.some.inj (hf.symm.trans hk)
      subst heq
      exact (hends hne node hr).elim hna hnb
  next => exact ht

@[simp] theorem switches_removeConnections (w : Wiring) (a b : Node) :
    (w.removeConnections a b).switches = w.switches := by
  unfold removeConnections
  split
  next =>
    obtain ⟨arcs, recent, he⟩ := foldl_dropArc_eq (w.connectionsBetween a b) w
    simp only [switches_releaseNode, he]
  next => rfl

@[simp] theorem terminals_removeConnections (w : Wiring) (a b : Node) :
    (w.removeConnections a b).terminals = w.terminals := by
  unfold removeConnections
  split
  next =>
    obtain ⟨arcs, recent, he⟩ := foldl_dropArc_eq (w.connectionsBetween a b) w
    simp only [terminals_releaseNode, he]
  next => rfl

theorem Sound.attach (h : w.Sound) {node : Node} (hn : node ∉ w.terminals) (a : Attachment) :
    ∃ w', w.attach node a = .ok w' ∧ w'.Sound ∧ w'.switches = w.switches ∧
      w'.terminals = w.terminals.insert node a ∧ (w.Tight → w'.Tight) := by
  refine ⟨{ w.ensureNode node with terminals := w.terminals.insert node a }, ?_, ?_, ?_, rfl, ?_⟩
  · simp only [Wiring.attach, ExtTreeMap.getElem?_eq_none hn]
  · have hl := h.toLaid.ensureNode node
    refine h.congr ⟨hl.place_iff, hl.source_mem, hl.target_mem, hl.apart, hl.recent_mem, ?_⟩
      (h.edges_ensureNode node) (w.switches_ensureNode node) (w.switchArcs_ensureNode node)
    intro other ho
    rw [mem_places_ensureNode]
    rcases ExtTreeMap.mem_insert.mp ho with he | ho
    · exact Or.inl (LawfulEqCmp.eq_of_compare he).symm
    · exact Or.inr (h.terminal_placed other ho)
  · exact w.switches_ensureNode node
  · intro ht other ho
    rcases mem_places_ensureNode.mp ho with rfl | ho
    · exact Or.inl (ExtTreeMap.mem_insert_self)
    · rcases ht other ho with hr | ⟨k, e, hk, hr⟩
      · exact Or.inl (ExtTreeMap.mem_insert.mpr (Or.inr hr))
      · exact Or.inr ⟨k, e, (congrArg (·[k]?) (h.edges_ensureNode node)).trans hk, hr⟩

theorem Laid.eraseTerminal (h : w.Laid) (node : Node) :
    Laid { w with terminals := w.terminals.erase node } :=
  ⟨h.place_iff, h.source_mem, h.target_mem, h.apart, h.recent_mem,
    fun other ho => h.terminal_placed other (ExtTreeMap.mem_of_mem_erase ho)⟩

theorem Sound.eraseTerminal (h : w.Sound) (node : Node) :
    Sound { w with terminals := w.terminals.erase node } :=
  h.congr (h.toLaid.eraseTerminal node) rfl rfl rfl

theorem Sound.detach (h : w.Sound) (node : Node) : (w.detach node).Sound :=
  (h.eraseTerminal node).releaseNode node

theorem tight_detach (h : w.Laid) (ht : w.Tight) (node : Node) : (w.detach node).Tight := by
  have hl := h.eraseTerminal node
  intro other ho
  rw [Wiring.detach, hl.referenced_releaseNode]
  obtain ⟨ho, hr⟩ := hl.mem_places_releaseNode.mp ho
  by_cases he : other = node
  · exact hr he
  rcases ht other ho with hm | hm
  · exact Or.inl (ExtTreeMap.mem_erase.mpr ⟨by simpa using Ne.symm he, hm⟩)
  · exact Or.inr hm

@[simp] theorem switches_detach (w : Wiring) (node : Node) :
    (w.detach node).switches = w.switches := by
  simp only [detach, switches_releaseNode]

@[simp] theorem terminals_detach (w : Wiring) (node : Node) :
    (w.detach node).terminals = w.terminals.erase node := by
  simp only [detach, terminals_releaseNode]

end Switchyard.Wiring
