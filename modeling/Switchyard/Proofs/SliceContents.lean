import Switchyard.Proofs.SliceOrders

namespace Switchyard

open Std Network

namespace Network

variable {n : Network} {w : Wiring} {vl x : String} {i : Int32} {c : Connectable}
  {orders : List FeederOrder}

/-- A path leads to a terminal of the connectable from a busbar section of the section index,
over nodes that hold no busbar section of another one. -/
def InReach (n : Network) (vl : String) (w : Wiring) (i : Int32) (c : Connectable) : Prop :=
  c ∈ n.connectables ∧ ∃ side node b p, (side, .atNode vl node) ∈ c.terminals ∧
    (b, p) ∈ n.placedSections vl ∧ p.sectionIndex = i ∧
    Reaches w.edgeList (n.Crosses w i) b.node node

/-- The sorted orders, in the voltage level, of the connectables in reach of a section
index. Each connectable counts once. -/
structure ListsSlice (n : Network) (vl : String) (w : Wiring) (i : Int32)
    (orders : List FeederOrder) : Prop where
  sorted : orders.Pairwise (· ≤ ·)
  perm : ∃ cs : List Connectable, cs.Nodup ∧ (∀ c, c ∈ cs ↔ n.InReach vl w i c) ∧
    orders.Perm (cs.flatMap (·.ordersIn vl))

namespace Coherent

variable (h : n.Coherent False) (hw : n.inside? vl = some (.nodeBreaker w))
include h hw

theorem inSlice_iff_inReach (hc : n.Keeps x c) : n.InSlice vl w i x ↔ n.InReach vl w i c := by
  have hattached : ∀ {node a}, a.connectable = x →
      (w.terminals[node]? = some a ↔ (a.side, .atNode vl node) ∈ c.terminals) := by
    rintro node a rfl
    have hiff := h.holdsAt_iff vl node a
    simp only [HoldsAt, hw, Option.some.injEq, Topology.nodeBreaker.injEq, exists_eq_left'] at hiff
    rw [hiff]
    constructor
    · rintro ⟨d, hd, hside⟩
      rwa [h.keeps_unique hc hd]
    · exact fun hside => ⟨c, hc, hside⟩
  constructor
  · rintro ⟨b, p, hb, hi, node, a, hreaches, ha, hx⟩
    exact ⟨mem_connectables_iff.mpr ⟨x, hc⟩, a.side, node, b, p, (hattached hx).mp ha, hb, hi,
      hreaches⟩
  · rintro ⟨-, side, node, b, p, hside, hb, hi, hreaches⟩
    exact ⟨b, p, hb, hi, node, ⟨x, side⟩, hreaches, (hattached rfl).mpr hside, rfl⟩

/-- The slice of a section index lists the orders of the connectables in its reach. -/
theorem listsSlice (ho : (n.sliceOrders vl)[i]? = some orders) :
    n.ListsSlice vl w i orders := by
  have hi : n.HasSlice vl i := by
    by_contra hno
    rw [getElem?_sliceOrders_of_not_hasSlice hw hno] at ho
    cases ho
  obtain ⟨ids, hnodup, hids⟩ := h.exists_list_inSlice hw i
  cases (getElem?_sliceOrders h hw hi hnodup hids).symm.trans ho
  have hid : ∀ {y d}, n.connectable? y = some d → d.id = y := fun hd =>
    h.connectable_id _ _ (h.connectable?_eq_some_iff.mp hd)
  refine ⟨sortOrders_sorted _, ids.filterMap n.connectable?, ?_, fun c => ?_, sortOrders_perm _⟩
  · refine hnodup.filterMap fun y z d hy hz => ?_
    exact (hid hy).symm.trans (hid hz)
  · rw [List.mem_filterMap]
    constructor
    · rintro ⟨y, hy, hc⟩
      exact (inSlice_iff_inReach h hw (h.connectable?_eq_some_iff.mp hc)).mp ((hids y).mp hy)
    · intro hreach
      obtain ⟨y, hc⟩ := mem_connectables_iff.mp hreach.1
      exact ⟨y, (hids y).mpr ((inSlice_iff_inReach h hw hc).mpr hreach),
        h.connectable?_eq_some_iff.mpr hc⟩

end Coherent

/-- In every network that can come about, a voltage level has a slice for each section index
of its busbar sections and for no other one, and a slice lists the orders of the connectables
in reach of its section index. -/
theorem slices_list_reach (id : String) (serial : Nat) (ops : List Operation) {vl : String}
    {w : Wiring} (hw : ((empty id serial).after ops).wiring vl = .ok w) :
    (∀ i, i ∈ ((empty id serial).after ops).sliceOrders vl ↔
      ∃ b ∈ ((empty id serial).after ops).busbarSectionsIn vl, ∃ p, b.position = some p ∧
        p.sectionIndex = i) ∧
    ∀ (i : Int32) orders, (((empty id serial).after ops).sliceOrders vl)[i]? = some orders →
      ((empty id serial).after ops).ListsSlice vl w i orders := by
  have hn := (coherent_empty False id serial).after ops False.elim
  have hin := wiring_eq_ok_iff.mp hw
  refine ⟨fun i => ?_, fun i orders ho => hn.listsSlice hin ho⟩
  rw [sliceOrders, ExtTreeMap.mem_map, mem_sliceMembers_iff hin]
  simp only [HasSlice, mem_placedSections, and_assoc, exists_and_left]

/-- A section of index 1 that leads over an open switch, a section without position and a
load to a line, and a section of index 2 that leads to the other side of that line. -/
def foldedLine : List Operation :=
  [.change (.addVoltageLevel { id := "V" }),
    .change (.addBusbarSection
      { voltageLevel := "V", id := "A", node := 0, position := some ⟨1, 1⟩ }),
    .change (.addBusbarSection
      { voltageLevel := "V", id := "B", node := 1, position := some ⟨1, 2⟩ }),
    .change (.addBusbarSection { voltageLevel := "V", id := "U", node := 2 }),
    .change (.addConnectable (.injection
      { owner := 0, id := "LD", terminal := some (.atNode "V" 3) })),
    .change (.addConnectable (.branch
      { owner := 0, id := "L", terminal1 := some (.atNode "V" 4),
        terminal2 := some (.atNode "V" 5) })),
    .change (.addSwitch
      { voltageLevel := "V", id := "S1", node1 := 0, node2 := 2, isOpen := true }),
    .change (.addSwitch { voltageLevel := "V", id := "S2", node1 := 2, node2 := 3 }),
    .change (.addConnection "V" 3 4),
    .change (.addSwitch { voltageLevel := "V", id := "S4", node1 := 1, node2 := 5 }),
    .change (.setFeederPosition "LD" (some { feeder1 := some ⟨none, some 20, .top⟩ })),
    .change (.setFeederPosition "L"
      (some { feeder1 := some ⟨none, some 10, .top⟩, feeder2 := some ⟨none, some 5, .top⟩ }))]

theorem slices_list_reach_foldedLine :
    ∃ w, ((empty "N" 0).after foldedLine).wiring "V" = .ok w ∧
      ((empty "N" 0).after foldedLine).ListsSlice "V" w 1 [5, 10, 20] ∧
      ((empty "N" 0).after foldedLine).ListsSlice "V" w 2 [5, 10] := by
  have hfirst : (((empty "N" 0).after foldedLine).sliceOrders "V")[(1 : Int32)]? =
      some [5, 10, 20] := by
    decide +kernel
  have hsecond : (((empty "N" 0).after foldedLine).sliceOrders "V")[(2 : Int32)]? =
      some [5, 10] := by
    decide +kernel
  cases hw : ((empty "N" 0).after foldedLine).wiring "V" with
  | error f =>
    have hnone : (((empty "N" 0).after foldedLine).sliceOrders "V")[(1 : Int32)]? = none := by
      simp [sliceOrders, sliceMembers, hw]
    rw [hfirst] at hnone
    cases hnone
  | ok w =>
    have hlists := (slices_list_reach "N" 0 foldedLine hw).2
    exact ⟨w, rfl, hlists 1 _ hfirst, hlists 2 _ hsecond⟩

end Network

end Switchyard
