import Switchyard.Proofs.History

namespace Switchyard

open Std

/-- The highest number that a node can have. -/
def Node.last : Node :=
  4294967295

namespace Wiring

section

variable [Numbering] {w : Wiring} {node : Node}

/-- A switch, an internal connection or a terminal is at the node. -/
def Used (w : Wiring) (node : Node) : Prop :=
  (∃ s ∈ w.switches.values, s.node1 = node ∨ s.node2 = node) ∨
    (∃ c ∈ w.connections, c.1 = node ∨ c.2 = node) ∨ node ∈ w.terminals

/-- The graph and the tables beside it tell of the same switches and nodes. -/
structure Consistent (w : Wiring) : Prop where
  mem_switchArcs_iff : ∀ id, id ∈ w.switchArcs ↔ id ∈ w.switches
  switchArc_iff : ∀ (id : String) (k : Nat), w.switchArcs[id]? = some k ↔
    ∃ a, w.arcs.entries[k]? = some a ∧ a.link = .switch id
  arc_of_switch : ∀ (id : String) s, w.switches[id]? = some s → s.id = id ∧
    ∃ k a, w.switchArcs[id]? = some k ∧ w.arcs.entries[k]? = some a ∧ a.link = .switch id ∧
      w.places[s.node1]? = some a.source ∧ w.places[s.node2]? = some a.target
  joined : ∀ (k : Nat) a, w.arcs.entries[k]? = some a →
    a.source ∈ w.points.entries ∧ a.target ∈ w.points.entries
  loopless : ∀ (k : Nat) a, w.arcs.entries[k]? = some a → a.source ≠ a.target
  place_iff : ∀ (node : Node) (point : Nat),
    w.places[node]? = some point ↔ w.points.entries[point]? = some node
  mem_nodes_iff : ∀ node, node ∈ w.nodes ↔ ∃! point : Nat, w.points.entries[point]? = some node

theorem Sound.arc_of_switch (h : w.Sound) {id : String} {s : Switch}
    (hs : w.switches[id]? = some s) :
    ∃ k a, w.switchArcs[id]? = some k ∧ w.arcs.entries[k]? = some a ∧ a.link = .switch id ∧
      w.places[s.node1]? = some a.source ∧ w.places[s.node2]? = some a.target := by
  obtain ⟨k, hk, he⟩ := h.edge_of_switch hs
  rw [getElem?_edges] at he
  obtain ⟨a, ha, he⟩ := Option.map_eq_some_iff.mp he
  obtain ⟨h1, h2, hl⟩ := Edge.mk.inj he
  refine ⟨k, a, hk, ha, ?_, ?_, ?_⟩
  · rw [hl, (h.switch_edge id s hs).1]
  · rw [← h1]
    exact h.places_nodeAt (h.source_mem k a ha)
  · rw [← h2]
    exact h.places_nodeAt (h.target_mem k a ha)

theorem Laid.mem_nodes_iff (h : w.Laid) :
    node ∈ w.nodes ↔ ∃! point : Nat, w.points.entries[point]? = some node := by
  rw [mem_nodes, mem_iff_exists_getElem?]
  constructor
  · intro hx
    obtain ⟨point, hp⟩ := hx
    refine ⟨point, (h.place_iff node point).mp hp, fun other ho => ?_⟩
    have ho := (h.place_iff node other).mpr ho
    exact (Option.some.inj (hp.symm.trans ho)).symm
  · intro hx
    obtain ⟨point, hp, -⟩ := hx
    exact ⟨point, (h.place_iff node point).mpr hp⟩

theorem Sound.consistent (h : w.Sound) : w.Consistent where
  mem_switchArcs_iff := fun id => (h.mem_switches_iff id).symm
  switchArc_iff := by
    intro id k
    rw [h.switchArc_iff, getElem?_edges]
    constructor
    · intro hx
      obtain ⟨e, he, hl⟩ := hx
      obtain ⟨a, ha, rfl⟩ := Option.map_eq_some_iff.mp he
      exact ⟨a, ha, hl⟩
    · intro hx
      obtain ⟨a, ha, hl⟩ := hx
      exact ⟨w.edgeOf a, by rw [ha, Option.map_some], hl⟩
  arc_of_switch := fun id s hs => ⟨(h.switch_edge id s hs).1, h.arc_of_switch hs⟩
  joined := fun k a ha => ⟨h.source_mem k a ha, h.target_mem k a ha⟩
  loopless := h.apart
  place_iff := h.place_iff
  mem_nodes_iff := fun _ => h.mem_nodes_iff

theorem Sound.used_iff (h : w.Sound) : w.Used node ↔ w.Referenced node := by
  constructor
  · intro hx
    rcases hx with ⟨s, hs, hend⟩ | ⟨c, hc, hend⟩ | ht
    · obtain ⟨id, hs⟩ := mem_values_iff.mp hs
      obtain ⟨k, -, he⟩ := h.edge_of_switch hs
      exact Or.inr ⟨k, s.edge, he, by simpa [Edge.touches, Switch.edge] using hend⟩
    · obtain ⟨e, he, rfl⟩ := List.mem_map.mp hc
      obtain ⟨k, hk⟩ := mem_values_iff.mp (List.mem_filter.mp he).1
      exact Or.inr ⟨k, e, hk, by simpa [Edge.touches] using hend⟩
    · exact Or.inl ht
  · intro hx
    rcases hx with ht | ⟨k, e, he, hend⟩
    · exact Or.inr (Or.inr ht)
    · have hend : e.node1 = node ∨ e.node2 = node := by simpa [Edge.touches] using hend
      cases hl : e.link with
      | switch id =>
        obtain ⟨s, hs, rfl⟩ := h.switch_of_edge he hl
        exact Or.inl ⟨s, mem_values_iff.mpr ⟨id, hs⟩, hend⟩
      | connection =>
        have hm : e ∈ w.edgeList.filter (·.link = .connection) :=
          List.mem_filter.mpr ⟨mem_values_iff.mpr ⟨k, he⟩, by simpa using hl⟩
        exact Or.inr (Or.inl ⟨_, List.mem_map_of_mem hm, hend⟩)

theorem Sound.mem_nodes_of_used (h : w.Sound) (hu : w.Used node) : node ∈ w.nodes :=
  mem_nodes.mpr (h.placed_of_referenced (h.used_iff.mp hu))

/-- One more than the highest node: all numbers from there on are free. -/
def ceiling (w : Wiring) : Nat :=
  (w.nodes.toList.getLast?.map (·.toNat + 1)).getD 0

theorem nextNode_eq (w : Wiring) : w.nextNode = .ofNat w.ceiling := by
  rw [nextNode, ceiling]
  cases w.nodes.toList.getLast? with
  | none => rfl
  | some top =>
    rw [Option.map_some, Option.getD_some, UInt32.ofNat_add, UInt32.ofNat_toNat]
    rfl

theorem ceiling_le_iff {c : Nat} : w.ceiling ≤ c ↔ ∀ node ∈ w.nodes, node.toNat < c := by
  rw [ceiling, ← ExtTreeSet.max?_eq_getLast?_toList]
  cases hm : w.nodes.max? with
  | none => simp [ExtTreeSet.max?_eq_none_iff.mp hm]
  | some top =>
    obtain ⟨hin, hle⟩ := ExtTreeSet.max?_eq_some_iff_mem_and_forall.mp hm
    refine ⟨fun hc node hn => ?_, fun h => h top hin⟩
    have hnode : node.toNat ≤ top.toNat := UInt32.le_iff_toNat_le.mp (isLE_compare.mp (hle node hn))
    exact Nat.lt_of_le_of_lt hnode hc

theorem toNat_lt_ceiling (hn : node ∈ w.nodes) : node.toNat < w.ceiling :=
  ceiling_le_iff.mp (Nat.le_refl _) node hn

/-- There are `count` more numbers above those of the nodes. -/
def Room (w : Wiring) (count : Nat) : Prop :=
  w.ceiling + count ≤ UInt32.size

theorem Room.mono {count fewer : Nat} (h : w.Room count) (hle : fewer ≤ count) : w.Room fewer :=
  Nat.le_trans (Nat.add_le_add_left hle _) h

theorem Room.lt_of_placed {count : Nat} (h : w.Room count) (hn : node ∈ w.places) :
    node.toNat + count < UInt32.size :=
  Nat.lt_of_lt_of_le (Nat.add_lt_add_right (toNat_lt_ceiling (mem_nodes.mpr hn)) count) h

/-- The room is left if no node has come that needs it. -/
theorem Room.of_places {u : Wiring} {count : Nat} (h : w.Room count)
    (hnew : ∀ node ∈ u.places, node ∈ w.places ∨ node.toNat + count < UInt32.size) :
    u.Room count := by
  have hle : count ≤ UInt32.size := Nat.le_trans (Nat.le_add_left _ _) h
  refine Nat.add_le_of_le_sub hle (ceiling_le_iff.mpr fun node hn => ?_)
  exact Nat.lt_sub_of_add_lt ((hnew node (mem_nodes.mp hn)).elim h.lt_of_placed id)

/-- Where there is room the numbers go up from the next node on. -/
theorem Room.toNat_add {count i : Nat} (h : w.Room count) (hi : i < count) :
    (w.nextNode + .ofNat i).toNat = w.ceiling + i := by
  rw [nextNode_eq, ← UInt32.ofNat_add]
  exact UInt32.toNat_ofNat_of_lt' (Nat.lt_of_lt_of_le (Nat.add_lt_add_left hi _) h)

theorem Room.toNat_nextNode {count : Nat} (h : w.Room (count + 1)) :
    w.nextNode.toNat = w.ceiling := by
  have hfirst := h.toNat_add (Nat.succ_pos count)
  rwa [show UInt32.ofNat 0 = 0 from rfl, UInt32.add_zero] at hfirst

theorem Room.nextNode_add_lt {count : Nat} (h : w.Room (count + 1)) :
    w.nextNode.toNat + count < UInt32.size :=
  h.toNat_nextNode ▸ h

theorem room_one_iff : w.Room 1 ↔ .last ∉ w.nodes := by
  rw [Room, Nat.add_one_le_iff]
  constructor
  · intro h hin
    have hlast := toNat_lt_ceiling hin
    exact absurd (Nat.lt_of_le_of_lt (Nat.succ_le_of_lt hlast) h) (Nat.lt_irrefl _)
  · intro hout
    refine Nat.lt_succ_of_le (ceiling_le_iff.mpr fun node hn => ?_)
    have hne : node.toNat ≠ Node.last.toNat := fun he => hout (UInt32.toNat_inj.mp he ▸ hn)
    exact Nat.lt_of_le_of_ne (Nat.le_of_lt_succ node.toNat_lt) hne

theorem lt_nextNode_iff : (∀ node ∈ w.nodes, node < w.nextNode) ↔ .last ∉ w.nodes := by
  rw [← room_one_iff]
  constructor
  · intro h
    rw [room_one_iff]
    intro hin
    exact absurd (UInt32.lt_iff_toNat_lt.mp (h _ hin)) (Nat.not_lt_of_le
      (Nat.le_of_lt_succ w.nextNode.toNat_lt))
  · intro h node hn
    rw [UInt32.lt_iff_toNat_lt, h.toNat_nextNode]
    exact toNat_lt_ceiling hn

end

end Wiring

namespace Network

section

variable [Numbering] {n : Network} {vl : String}

/-- No wiring of the voltage level has the node. -/
def Unplaced (n : Network) (vl : String) (node : Node) : Prop :=
  ∀ w, n.inside? vl = some (.nodeBreaker w) → node ∉ w.places

/-- There are `count` more numbers above those of the nodes of the voltage level. -/
def Room (n : Network) (vl : String) (count : Nat) : Prop :=
  ∀ w, n.inside? vl = some (.nodeBreaker w) → w.Room count

instance (n : Network) (vl : String) (count : Nat) : Decidable (n.Room vl count) :=
  match hv : n.inside? vl with
  | some (.nodeBreaker w) =>
    decidable_of_iff (w.ceiling + count ≤ UInt32.size)
      ⟨fun h u hu => by cases hv.symm.trans hu; exact h, fun h => h w hv⟩
  | some (.busBreaker _) => .isTrue fun _ hw => by cases hv.symm.trans hw
  | none => .isTrue fun _ hw => by cases hv.symm.trans hw

/-- There is room in the voltage level of a bus or busbar section. -/
def RoomAt (n : Network) (id : String) (count : Nat) : Prop :=
  ∀ j, n.junction id = .ok j → n.Room j.voltageLevel count

instance (n : Network) (id : String) (count : Nat) : Decidable (n.RoomAt id count) :=
  match hj : n.junction id with
  | .ok j =>
    decidable_of_iff (n.Room j.voltageLevel count)
      ⟨fun h i hi => by cases hj.symm.trans hi; exact h, fun h => h j hj⟩
  | .error _ => .isTrue fun _ hi => by cases hj.symm.trans hi

theorem Room.mono {count fewer : Nat} (h : n.Room vl count) (hle : fewer ≤ count) :
    n.Room vl fewer :=
  fun w hw => (h w hw).mono hle

theorem Room.unplaced {count i : Nat} (h : n.Room vl count) (hi : i < count) {w : Wiring}
    (hw : n.inside? vl = some (.nodeBreaker w)) : n.Unplaced vl (w.nextNode + .ofNat i) := by
  intro u hu hplaced
  rw [hw] at hu
  cases hu
  have hlt := Wiring.toNat_lt_ceiling (Wiring.mem_nodes.mpr hplaced)
  rw [(h w hw).toNat_add hi] at hlt
  exact absurd hlt (Nat.not_lt_of_le (Nat.le_add_right _ _))

theorem Room.unplaced_nextNode {count : Nat} (h : n.Room vl (count + 1)) {w : Wiring}
    (hw : n.inside? vl = some (.nodeBreaker w)) : n.Unplaced vl w.nextNode := by
  have hfirst := h.unplaced (Nat.succ_pos count) hw
  rwa [show UInt32.ofNat 0 = 0 from rfl, UInt32.add_zero] at hfirst

end

/-- A row of two switches and an internal connection, then without its end. -/
def shortenedRow : List Operation :=
  [.change (.addVoltageLevel { id := "V" }),
    .change (.addSwitch { voltageLevel := "V", id := "D1", node1 := 0, node2 := 1 }),
    .change (.addSwitch { voltageLevel := "V", id := "D2", node1 := 1, node2 := 5 }),
    .change (.addConnection "V" 5 6), .change (.removeConnections "V" 6 5),
    .change (.removeSwitch "D2")]

/-- Equipment at the node with the highest number. -/
def lastNodeTaken : List Operation :=
  [.change (.addVoltageLevel { id := "V" }),
    .change (.addConnectable (.injection
      { owner := 0, id := "LD", terminal := some (.atNode "V" .last) }))]

/-- Removed between a node and itself, an internal connection leaves its other end behind. -/
example :
    (((empty "N" 0).after
      [.change (.addVoltageLevel { id := "V" }), .change (.addConnection "V" 0 1),
        .change (.removeConnections "V" 0 0)]).wiring "V").toOption.map (·.nodes.toList) =
      some [1] := by
  decide +kernel

end Network

end Switchyard
