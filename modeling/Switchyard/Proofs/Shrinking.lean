import Switchyard.Proofs.Elsewhere

namespace Switchyard

open Std Network

/-- The edge joins the two nodes, in one direction or the other. -/
def Edge.Between (e : Edge) (a b : Node) : Prop :=
  e.node1 = a ∧ e.node2 = b ∨ e.node1 = b ∧ e.node2 = a

theorem Edge.Between.symm {e : Edge} {a b : Node} (h : e.Between a b) : e.Between b a :=
  h.elim Or.inr Or.inl

theorem Edge.between_ends (e : Edge) : e.Between e.node1 e.node2 :=
  Or.inl ⟨rfl, rfl⟩

theorem Edge.touches_iff {e : Edge} {a : Node} :
    e.touches a = true ↔ e.node1 = a ∨ e.node2 = a := by
  simp [touches]

theorem Edge.between_farEnd {e : Edge} {a : Node} (h : e.touches a = true) :
    e.Between a (e.farEnd a) := by
  rw [touches_iff] at h
  unfold farEnd Between
  split
  · exact Or.inl ⟨‹_›, rfl⟩
  · exact Or.inr ⟨rfl, h.resolve_left ‹_›⟩

theorem Edge.Between.farEnd_eq {e : Edge} {a b : Node} (h : e.Between a b) : e.farEnd a = b := by
  unfold farEnd
  rcases h with ⟨rfl, rfl⟩ | ⟨rfl, rfl⟩
  · exact if_pos rfl
  · split
    · exact Eq.symm ‹_›
    · rfl

theorem Edge.Between.touches_iff {e : Edge} {a b x : Node} (h : e.Between a b) :
    e.touches x = true ↔ x = a ∨ x = b := by
  rw [Edge.touches_iff]
  rcases h with ⟨rfl, rfl⟩ | ⟨rfl, rfl⟩
  · exact or_congr eq_comm eq_comm
  · exact or_comm.trans (or_congr eq_comm eq_comm)

namespace Wiring

variable {w w' w'' : Wiring} {P Q : Edge → Prop}

/-- The second wiring is what is left of the first one. The edges that are gone
are as told, and what is left is as it was. -/
structure Shrinks (P : Edge → Prop) (w w' : Wiring) : Prop where
  edge : ∀ (k : Nat) e, w'.edges[k]? = some e → w.edges[k]? = some e
  switch : ∀ (id : String) s, w'.switches[id]? = some s → w.switches[id]? = some s
  lost : ∀ (k : Nat) e, w.edges[k]? = some e → w'.edges[k]? = none → P e

namespace Shrinks

theorem refl (w : Wiring) : w.Shrinks P w where
  edge := fun _ _ => id
  switch := fun _ _ => id
  lost := fun k e he hno => by
    rw [he] at hno
    cases hno

theorem trans (h : w.Shrinks P w') (h' : w'.Shrinks P w'') : w.Shrinks P w'' where
  edge := fun k e he => h.edge k e (h'.edge k e he)
  switch := fun id s hs => h.switch id s (h'.switch id s hs)
  lost := fun k e he hno => by
    cases hk : w'.edges[k]? with
    | none => exact h.lost k e he hk
    | some f =>
      cases he.symm.trans (h.edge k f hk)
      exact h'.lost k e hk hno

theorem mono (h : w.Shrinks P w') (hPQ : ∀ e, P e → Q e) : w.Shrinks Q w' :=
  ⟨h.edge, h.switch, fun k e he hno => hPQ e (h.lost k e he hno)⟩

theorem edgeList_subset (h : w.Shrinks P w') : w'.edgeList ⊆ w.edgeList := by
  intro e he
  obtain ⟨k, hk⟩ := mem_values_iff.mp he
  exact mem_values_iff.mpr ⟨k, h.edge k e hk⟩

theorem of_switch (h : w.Shrinks P w') (hw : w.Sound) (hw' : w'.Sound) {id : String} {s : Switch}
    (hs : w.switches[id]? = some s) (hno : id ∉ w'.switches) : P s.edge := by
  obtain ⟨k, -, hk⟩ := hw.edge_of_switch hs
  refine h.lost k _ hk ?_
  cases hk' : w'.edges[k]? with
  | none => rfl
  | some e =>
    have heq : s.edge = e := Option.some.inj (hk.symm.trans (h.edge k e hk'))
    have hid : e.link = .switch id := by
      rw [← heq, ← (hw.switch_edge id s hs).1]
      rfl
    obtain ⟨s', hs', -⟩ := hw'.switch_of_edge hk' hid
    exact absurd (mem_iff_exists_getElem?.mpr ⟨s', hs'⟩) hno

end Shrinks

theorem Sound.edges_removeSwitch? (h : w.Sound) {id : String} (hw : w.removeSwitch? id = some w') :
    ∃ s number, w.switches[id]? = some s ∧ w.edges[number]? = some s.edge ∧
      w'.edges = w.edges.erase number ∧ w'.switches = w.switches.erase id := by
  have hfound := hw
  simp only [Wiring.removeSwitch?, Option.bind_eq_bind, Option.bind_eq_some_iff] at hfound
  obtain ⟨-, -, s, hs, -⟩ := hfound
  obtain ⟨number, hn, he, heq⟩ := h.removeSwitch?_eq hs
  cases heq.symm.trans hw
  have hlaid := (h.withoutSwitch hn).toLaid
  refine ⟨s, number, hs, he, ?_, ?_⟩
  · rw [(hlaid.releaseNode _).edges_releaseNode, hlaid.edges_releaseNode, edges_withoutSwitch]
  · simp only [switches_releaseNode]
    rfl

theorem Sound.shrinks_removeSwitch? (h : w.Sound) {id : String}
    (hw : w.removeSwitch? id = some w') (hP : ∀ s, w.switches[id]? = some s → P s.edge) :
    w.Shrinks P w' := by
  obtain ⟨s, number, hs, he, hedges, hswitches⟩ := h.edges_removeSwitch? hw
  refine ⟨fun k e hk => ?_, fun x t ht => ?_, fun k e hk hno => ?_⟩
  · rw [hedges, ExtTreeMap.getElem?_erase] at hk
    split at hk
    · cases hk
    · exact hk
  · rw [hswitches, ExtTreeMap.getElem?_erase] at ht
    split at ht
    · cases ht
    · exact ht
  · rw [hedges, ExtTreeMap.getElem?_erase] at hno
    split at hno
    next hkey =>
      cases LawfulEqCmp.eq_of_compare hkey
      cases he.symm.trans hk
      exact hP s hs
    next =>
      rw [hk] at hno
      cases hno

/-- Internal connections are told by their ends. -/
theorem Laid.mem_connectionsBetween (h : w.Laid) {a b : Node} {k : Nat} (hne : a ≠ b) :
    k ∈ w.connectionsBetween a b ↔
      ∃ e, w.edges[k]? = some e ∧ e.link = .connection ∧ e.Between a b := by
  constructor
  · intro hk
    obtain ⟨e, he, hl, hends⟩ := h.edge_of_mem_connectionsBetween hk
    refine ⟨e, he, hl, ?_⟩
    have h1 := hends hne e.node1 (Edge.touches_iff.mpr (Or.inl rfl))
    have h2 := hends hne e.node2 (Edge.touches_iff.mpr (Or.inr rfl))
    have hloop := h.loopless he
    unfold Edge.Between
    grind
  · rintro ⟨e, he, hl, hends⟩
    obtain ⟨p, hp⟩ := mem_iff_exists_getElem?.mp
      (h.placed_of_touches he (hends.touches_iff.mpr (Or.inl rfl)))
    obtain ⟨q, hq⟩ := mem_iff_exists_getElem?.mp
      (h.placed_of_touches he (hends.touches_iff.mpr (Or.inr rfl)))
    rw [getElem?_edges] at he
    obtain ⟨arc, ha, rfl⟩ := Option.map_eq_some_iff.mp he
    have hrecent := h.recent_mem k (mem_iff_exists_getElem?.mpr ⟨arc, ha⟩)
    have hlink : arc.link = .connection := hl
    have hfar := (h.touches_iff ha hq).mp (hends.touches_iff.mpr (Or.inr rfl))
    have hnear := (h.touches_iff ha hp).mp (hends.touches_iff.mpr (Or.inl rfl))
    have hsides : arc.source = p ∨ arc.target = p := by simpa [Arc.touches] using hnear
    simp only [connectionsBetween, hp, hq, Slots.mem_arrange, List.mem_append, List.mem_filter,
      hrecent, ha, hlink,
      hfar, decide_true, Bool.true_and, beq_iff_eq, true_and]
    exact hsides

theorem Laid.edges_removeConnections (h : w.Laid) (a b : Node) (k : Nat) :
    (w.removeConnections a b).edges[k]? =
      if k ∈ w.connectionsBetween a b then none else w.edges[k]? := by
  unfold removeConnections
  split
  · have hlaid := h.foldl_dropArc (w.connectionsBetween a b)
    rw [(hlaid.releaseNode _).edges_releaseNode, hlaid.edges_releaseNode,
      getElem?_edges_foldl_dropArc]
  next hplaces =>
    have hnone : w.connectionsBetween a b = [] := by
      unfold connectionsBetween
      split
      next p q hp hq => simp [ExtTreeMap.contains_eq_isSome_getElem?, hp, hq] at hplaces
      next => rfl
    rw [hnone, if_neg List.not_mem_nil]

theorem Laid.shrinks_removeConnections (h : w.Laid) {a b : Node} (hne : a ≠ b)
    (hP : ∀ e : Edge, e.Between a b → P e) : w.Shrinks P (w.removeConnections a b) := by
  refine ⟨fun k e hk => ?_, fun x t ht => ?_, fun k e hk hno => ?_⟩
  · rw [h.edges_removeConnections] at hk
    split at hk
    · cases hk
    · exact hk
  · rwa [switches_removeConnections] at ht
  · rw [h.edges_removeConnections] at hno
    split at hno
    next hmem =>
      obtain ⟨f, hf, -, hends⟩ := (h.mem_connectionsBetween hne).mp hmem
      cases hk.symm.trans hf
      exact hP e hends
    next =>
      rw [hk] at hno
      cases hno

/-- No edge of the wiring has the ends and the link of the given one. -/
def Lacks (w : Wiring) (d : Edge) : Prop :=
  ∀ e ∈ w.edgeList, e.link = d.link → ¬e.Between d.node1 d.node2

theorem Lacks.of_shrinks {d : Edge} (hd : w.Lacks d) (h : w.Shrinks P w') : w'.Lacks d :=
  fun e he => hd e (h.edgeList_subset he)

theorem Sound.lacks_removeSwitch? (h : w.Sound) {id : String} (hw : w.removeSwitch? id = some w')
    (a b : Node) : w'.Lacks ⟨a, b, .switch id⟩ := by
  obtain ⟨s, number, hs, hs', hedges, -⟩ := h.edges_removeSwitch? hw
  intro e he hl _
  obtain ⟨k, hk⟩ := mem_values_iff.mp he
  rw [hedges, ExtTreeMap.getElem?_erase] at hk
  split at hk
  · cases hk
  next hne =>
    have hnumber := (h.switchArc_iff id number).mpr ⟨_, hs', h.switch_edge id s hs |>.1 ▸ rfl⟩
    have hother := (h.switchArc_iff id k).mpr ⟨e, hk, hl⟩
    cases hnumber.symm.trans hother
    simp at hne

theorem Laid.lacks_removeConnections (h : w.Laid) {a b : Node} (hne : a ≠ b) :
    (w.removeConnections a b).Lacks ⟨a, b, .connection⟩ := by
  intro e he hl hends
  obtain ⟨k, hk⟩ := mem_values_iff.mp he
  rw [h.edges_removeConnections] at hk
  split at hk
  · cases hk
  next hno => exact hno ((h.mem_connectionsBetween hne).mpr ⟨e, hk, hl, hends⟩)

theorem Laid.edges_detach (h : w.Laid) (node : Node) : (w.detach node).edges = w.edges :=
  (h.eraseTerminal node).edges_releaseNode node

theorem Laid.shrinks_detach (h : w.Laid) (node : Node) : w.Shrinks P (w.detach node) where
  edge := fun k e hk => by rwa [h.edges_detach] at hk
  switch := fun id s hs => by rwa [switches_detach] at hs
  lost := fun k e hk hno => by
    rw [h.edges_detach, hk] at hno
    cases hno

end Wiring

/-- Cuts of switches are told by the ends of those switches. -/
def Wiring.Names (w : Wiring) (cuts : List Cut) : Prop :=
  ∀ d ∈ removedEdges cuts, ∀ (id : String) s, d.link = .switch id → w.switches[id]? = some s →
    s.edge.Between d.node1 d.node2

theorem Wiring.Names.tail {w w' : Wiring} {P : Edge → Prop} {c : Cut} {rest : List Cut}
    (h : w.Names (c :: rest)) (hw : w.Shrinks P w') : w'.Names rest := by
  have hsub : (removedEdges rest).Sublist (removedEdges (c :: rest)) :=
    (List.sublist_cons_self c rest).filterMap _
  exact fun d hd id s hl hs => h d (hsub.subset hd) id s hl (hw.switch id s hs)

/-- The edge joins the same nodes as one of those that are cut. -/
def CutAlong (cuts : List Cut) (e : Edge) : Prop :=
  ∃ d ∈ removedEdges cuts, e.Between d.node1 d.node2

theorem CutAlong.cons {cuts : List Cut} {e : Edge} (h : CutAlong cuts e) (c : Cut) :
    CutAlong (c :: cuts) e := by
  obtain ⟨d, hd, he⟩ := h
  exact ⟨d, ((List.sublist_cons_self c cuts).filterMap _).subset hd, he⟩

theorem Wiring.Shrinks.cut {w u w' : Wiring} {e : Edge} {rest : List Cut}
    (h : w.Shrinks (·.Between e.node1 e.node2) u) (h' : u.Shrinks (CutAlong rest) w') :
    w.Shrinks (CutAlong (.remove e :: rest)) w' :=
  (h.mono fun _ hf => ⟨e, List.mem_cons_self, hf⟩).trans (h'.mono fun _ hf => hf.cons _)

theorem Wiring.Sound.names_prune {w : Wiring} (h : w.Sound) (n : Network) (start node : Node) :
    w.Names ((n.bay w start).prune node) := by
  intro d hd id x hl hx
  obtain ⟨hops, hlinks, hsub, halong⟩ := n.links_bay w start
  have hmem := ((n.bay w start).prune_subperm node).subset hd
  rw [hlinks] at hmem
  obtain ⟨hop, hhop, rfl⟩ := List.mem_map.mp hmem
  obtain ⟨k, hk⟩ := mem_values_iff.mp (hsub.subset (List.mem_map.mpr ⟨hop, hhop, rfl⟩))
  obtain ⟨y, hy, hedge⟩ := h.switch_of_edge hk hl
  cases hx.symm.trans hy
  obtain ⟨ht, htarget⟩ := halong hop hhop
  rw [hedge, htarget]
  exact Edge.between_farEnd ht

namespace Network

variable {n m : Network} {vl : String}

/-- Cuts take the edges they name, and no other edges but between the same nodes. -/
theorem Cuts.shrinks {cuts : List Cut} (h : n.Cuts vl cuts m) (hn : n.Coherent False) {w : Wiring}
    (hw : n.inside? vl = some (.nodeBreaker w))
    (hapart : ∀ d ∈ removedEdges cuts, d.node1 ≠ d.node2) (hnames : w.Names cuts) :
    ∃ w', m.inside? vl = some (.nodeBreaker w') ∧ w.Shrinks (CutAlong cuts) w' ∧
      ∀ d ∈ removedEdges cuts, w'.Lacks d := by
  -- The cuts to come name switches of what is left, as nothing there changes.
  induction h generalizing w with
  | nil => exact ⟨w, hw, .refl w, by simp [removedEdges]⟩
  | stopAt _ ih => exact ih hn hw hapart hnames
  | @switch n m u u' a b id rest hu hu' hk _ ih =>
    cases hw.symm.trans hu
    have hsound := hn.sound vl u hw
    have hfirst : u.Shrinks (·.Between a b) u' := hsound.shrinks_removeSwitch? hu' fun y hy =>
      hnames _ List.mem_cons_self id y rfl hy
    obtain ⟨w'', hw'', hlater, hall⟩ := ih hk (inside?_setTopology_self hw _)
      (fun d hd => hapart d (List.mem_cons_of_mem _ hd)) (hnames.tail hfirst)
    exact ⟨w'', hw'', .cut hfirst hlater,
      List.forall_mem_cons.mpr ⟨(hsound.lacks_removeSwitch? hu' a b).of_shrinks hlater, hall⟩⟩
  | @connection n m u a b rest hu hk _ ih =>
    cases hw.symm.trans hu
    have hlaid := (hn.sound vl u hw).toLaid
    have hne := hapart _ List.mem_cons_self
    have hfirst := hlaid.shrinks_removeConnections hne fun _ hf => hf
    obtain ⟨w'', hw'', hlater, hall⟩ := ih hk (inside?_setTopology_self hw _)
      (fun d hd => hapart d (List.mem_cons_of_mem _ hd)) (hnames.tail hfirst)
    exact ⟨w'', hw'', .cut hfirst hlater,
      List.forall_mem_cons.mpr ⟨(hlaid.lacks_removeConnections hne).of_shrinks hlater, hall⟩⟩

/-- Pruning a bay takes what its cuts name, and nothing else anywhere. -/
theorem Prunes.shrinks {node : Node} (h : n.Prunes vl node m) (hn : n.Coherent False) :
    ∃ w w', n.inside? vl = some (.nodeBreaker w) ∧ m.inside? vl = some (.nodeBreaker w') ∧
      w.Shrinks (CutAlong ((n.bay w node).prune node)) w' ∧
      ∀ d ∈ removedEdges ((n.bay w node).prune node), w'.Lacks d := by
  obtain ⟨w, hw, hcuts⟩ := h
  have hsound := hn.sound vl w hw
  obtain ⟨-, -, hapart⟩ := hsound.prune_spec n node node
  obtain ⟨w', hw', hshrinks⟩ := hcuts.shrinks hn hw hapart (hsound.names_prune n node node)
  exact ⟨w, w', hw, hw', hshrinks⟩

end Network

end Switchyard
