import Switchyard.Proofs.Consistency
import Switchyard.Proofs.Extended
import Switchyard.Proofs.Feeders

namespace Switchyard

open Std Network

variable {X : Set String} {S : Set Switch} {n m : Network} {c : Connectable} {vl id : String}
  {o : FeederOrder}

namespace FeederPosition

@[simp] theorem feeder_empty (side : Side) : ({} : FeederPosition).feeder side = none := by
  cases side <;> rfl

theorem isEmpty_iff {p : FeederPosition} : p.isEmpty = true ↔ ∀ side, p.feeder side = none := by
  rw [isEmpty, List.isEmpty_iff, toList, List.filterMap_eq_nil_iff]
  simp only [Option.map_eq_none_iff]
  refine ⟨fun h side => h side ?_, fun h side _ => h side⟩
  cases side <;> simp

end FeederPosition

namespace Connectable

/-- The feeder of a side, if it has a position. -/
def feeder? (c : Connectable) (side : Side) : Option Feeder :=
  c.position.bind (·.feeder side)

theorem position_withPosition (h : c.holder = none) (position : Option FeederPosition) :
    (c.withPosition position).position = position := by
  cases c with
  | busbarSection b => cases h
  | _ => rfl

theorem mem_feedersIn_iff {f : Feeder} : f ∈ c.feedersIn vl ↔
    ∃ side t, (side, t) ∈ c.terminals ∧ t.voltageLevel = vl ∧ c.feeder? side = some f := by
  unfold feedersIn feeder?
  cases c.position with
  | none => simp
  | some p =>
    simp only [List.mem_filterMap, List.mem_filter, Option.bind_some, Prod.exists, beq_iff_eq]
    grind

theorem mem_ordersIn_iff : o ∈ c.ordersIn vl ↔
    ∃ side t f, (side, t) ∈ c.terminals ∧ t.voltageLevel = vl ∧ c.feeder? side = some f ∧
      f.order = some o := by
  simp only [ordersIn, List.mem_filterMap, mem_feedersIn_iff]
  grind

theorem ordersIn_eq_nil (h : c.position = none) : c.ordersIn vl = [] := by
  rw [ordersIn, feedersIn, h, List.filterMap_nil]

theorem isIn_iff : c.isIn vl = true ↔ ∃ side t, (side, t) ∈ c.terminals ∧ t.voltageLevel = vl := by
  simp [isIn]

theorem isIn_of_mem_ordersIn (h : o ∈ c.ordersIn vl) : c.isIn vl = true := by
  obtain ⟨side, t, -, ht, hvl, -⟩ := mem_ordersIn_iff.mp h
  exact isIn_iff.mpr ⟨side, t, ht, hvl⟩

end Connectable

namespace Network

theorem mem_connectablesIn_iff :
    c ∈ n.connectablesIn vl ↔ (∃ x, n.Keeps x c) ∧ c.isIn vl = true := by
  rw [connectablesIn, List.mem_filter, mem_connectables_iff]

theorem mem_equipmentIn_iff : c ∈ n.equipmentIn vl ↔
    (∃ x, n.Keeps x c) ∧ c.isIn vl = true ∧ c.isBusbarSection = false := by
  rw [equipmentIn, List.mem_filter, mem_connectablesIn_iff, and_assoc, Bool.not_eq_true']

theorem mem_feederOrders_iff :
    o ∈ n.feederOrders vl ↔ ∃ x c, n.Keeps x c ∧ o ∈ c.ordersIn vl := by
  simp only [feederOrders, ExtTreeSet.mem_ofList, List.contains_iff_mem, List.mem_flatMap,
    mem_connectablesIn_iff]
  constructor
  · rintro ⟨c, ⟨⟨x, hc⟩, -⟩, ho⟩
    exact ⟨x, c, hc, ho⟩
  · rintro ⟨x, c, hc, ho⟩
    exact ⟨c, ⟨⟨x, hc⟩, c.isIn_of_mem_ordersIn ho⟩, ho⟩

theorem Coherent.not_hasBus (h : n.Coherent False) {t : BusbarSection}
    (ht : n.busbarSections[id]? = some t) : ¬n.HasBus vl id := fun ⟨_, hl, hbus⟩ =>
  (h.not_other (c := .busbarSection t) ht).2.2 _ _ _ hl (Or.inr ⟨rfl, hbus⟩)

/-- Feeder positions can be given in the voltage level: some feeder has one, or no
equipment is there. -/
def Comparable (n : Network) (vl : String) : Prop :=
  (∃ o, o ∈ n.feederOrders vl) ∨ n.equipmentIn vl = []

theorem isEmpty_feederOrders_iff :
    (n.feederOrders vl).isEmpty = false ↔ ∃ o, o ∈ n.feederOrders vl := by
  rw [← Bool.not_eq_true, ExtTreeSet.isEmpty_iff, ExtTreeSet.eq_empty_iff_forall_not_mem,
    not_forall_not]

namespace Extended

theorem feederOrders_eq (h : Extended X S {c} n m) (hc : c.position = none) (vl : String) :
    m.feederOrders vl = n.feederOrders vl := by
  apply ExtTreeSet.ext_mem
  intro o
  simp only [mem_feederOrders_iff, h.keeps_iff, Set.mem_singleton_iff]
  constructor
  · rintro ⟨x, d, hd | ⟨-, rfl⟩, ho⟩
    · exact ⟨x, d, hd, ho⟩
    · rw [d.ordersIn_eq_nil hc] at ho
      cases ho
  · rintro ⟨x, d, hd, ho⟩
    exact ⟨x, d, Or.inl hd, ho⟩

/-- The connectable besides is one piece of equipment more where it is attached. -/
theorem equipmentIn_perm (h : Extended X S {c} n m) (hc : c.isIn vl = true) :
    (m.equipmentIn vl).Perm (c :: n.equipmentIn vl) := by
  have hnodup : ∀ {k : Network}, k.Coherent False → (k.equipmentIn vl).Nodup := fun hk =>
    (hk.nodup_connectables.filter _).filter _
  have hsection : c.isBusbarSection = false := by
    have hfree := h.free c rfl
    cases c with
    | busbarSection b => cases hfree
    | _ => rfl
  have hnew : c ∉ n.equipmentIn vl := by
    intro hin
    obtain ⟨⟨x, hx⟩, -⟩ := mem_equipmentIn_iff.mp hin
    have hid : c.id = x := h.base.connectable_id x c hx
    exact h.fresh c rfl c (hid ▸ hx)
  rw [List.perm_ext_iff_of_nodup (hnodup h.coherent) (List.nodup_cons.mpr ⟨hnew, hnodup h.base⟩)]
  intro d
  simp only [mem_equipmentIn_iff, h.keeps_iff, Set.mem_singleton_iff, List.mem_cons]
  constructor
  · rintro ⟨⟨x, hd | ⟨-, rfl⟩⟩, hrest⟩
    · exact Or.inr ⟨⟨x, hd⟩, hrest⟩
    · exact Or.inl rfl
  · rintro (rfl | ⟨⟨x, hd⟩, hrest⟩)
    · exact ⟨⟨d.id, Or.inr ⟨rfl, rfl⟩⟩, hc, hsection⟩
    · exact ⟨⟨x, Or.inl hd⟩, hrest⟩

/-- Once the connectable is there, it is looked for being the only equipment. -/
theorem comparable_iff (h : Extended X S {c} n m) (hposition : c.position = none)
    (hc : c.isIn vl = true) :
    (!(m.feederOrders vl).isEmpty || (m.equipmentIn vl).length == 1) = true ↔ n.Comparable vl := by
  rw [h.feederOrders_eq hposition, (h.equipmentIn_perm hc).length_eq]
  simp only [Comparable, ← isEmpty_feederOrders_iff, Bool.or_eq_true, Bool.not_eq_true',
    beq_iff_eq, List.length_cons, Nat.add_eq_right, List.length_eq_zero_iff]

end Extended

end Network

/-- The feeder of a side that gets a position. -/
def FeederBay.feeder (bay : FeederBay) (connectable : String) : Feeder :=
  ⟨some (bay.name.getD connectable), bay.order, bay.direction⟩

/-- The side gets the feeder: its order can be used, and feeder positions can be
given where it is. -/
def RankedSide.Gains (n : Network) (connectable : String) (r : RankedSide) (f : Feeder) : Prop :=
  ∃ id vl node, r.junction = .busbarSection id vl node ∧ n.Comparable vl ∧ r.ranked = true ∧
    f = r.bay.feeder connectable

namespace Network

/-- A bay at busbar section `t` whose feeder gets order `o`. The busbar section has a
position. The order is not taken in the voltage level, and lies where the slices
around leave room. -/
structure Ranks (n : Network) (bay : FeederBay) (t : BusbarSection) (o : FeederOrder) : Prop where
  target : n.busbarSections[bay.target]? = some t
  placed : t.position.isSome
  order : bay.order = some o
  untaken : o ∉ n.feederOrders t.voltageLevel
  inRange : ∃ r, n.positionRange bay.target = .ok (some r) ∧ r.contains o = true
  comparable : n.Comparable t.voltageLevel

theorem orderFault?_eq_none_iff : n.orderFault? id vl o = .ok none ↔
    o ∉ n.feederOrders vl ∧ ∃ r, n.positionRange id = .ok (some r) ∧ r.contains o = true := by
  unfold orderFault?
  rw [← ExtTreeSet.contains_iff_mem]
  cases (n.feederOrders vl).contains o with
  | true => simp [Pure.pure, Except.pure]
  | false =>
    cases hr : n.positionRange id with
    | error f => simp [bind, Except.bind]
    | ok range =>
      cases range with
      | none => simp [bind, Except.bind, pure, Except.pure]
      | some r =>
        cases hcontains : r.contains o <;> simp [bind, Except.bind, pure, Except.pure, hcontains]

end Network

/-- A side that is found gets a feeder where its bay ranks. -/
theorem RankedSide.gains_iff {r : RankedSide} (hn : n.Coherent False) (hfound : r.Found n)
    (hranked : r.ranked = true ↔ r.Usable n) {connectable : String} {f : Feeder} :
    r.Gains n connectable f ↔ ∃ t o, n.Ranks r.bay t o ∧ f = r.bay.feeder connectable := by
  constructor
  · rintro ⟨id, vl, node, hj, hcomparable, husable, rfl⟩
    obtain ⟨_, _, _, hj', hplaced, hfault⟩ := hranked.mp husable
    cases hj.symm.trans hj'
    obtain ⟨o, ho⟩ := Option.isSome_iff_exists.mp (hfound.ordered _ _ _ hj)
    rw [ho, Option.getD_some, orderFault?_eq_none_iff] at hfault
    obtain ⟨_, he, -⟩ | ⟨t, ht, he⟩ := hn.junction_cases hfound.junction_eq
    · cases hj.symm.trans he
    cases hj.symm.trans he
    refine ⟨t, o, ⟨ht, ?_, ho, hfault.1, hfault.2, hcomparable⟩, rfl⟩
    simpa only [sectionIndex?, ht, Option.bind_some, Option.isSome_map] using hplaced
  · rintro ⟨t, o, ht, rfl⟩
    obtain ⟨vl, -, hbus⟩ | ⟨b, hb, hj⟩ := hn.junction_cases hfound.junction_eq
    · exact absurd hbus (hn.not_hasBus ht.target)
    cases hb.symm.trans ht.target
    refine ⟨_, _, _, hj, ht.comparable, hranked.mpr ⟨_, _, _, hj, ?_, ?_⟩, rfl⟩
    · simpa only [sectionIndex?, hb, Option.bind_some, Option.isSome_map] using ht.placed
    · rw [ht.order, Option.getD_some, orderFault?_eq_none_iff]
      exact ⟨ht.untaken, ht.inRange⟩

end Switchyard
