import Switchyard.Proofs.SliceRanges

namespace Switchyard

open Std Network

variable {n : Network} {vl id : String} {i : Int32} {o x y : FeederOrder}
  {orders : List FeederOrder} {slices : ExtTreeMap Int32 (List FeederOrder)}
  {below above side : FeederOrder → Prop} {lo hi bound : Option FeederOrder}

namespace Network

/-- The order is the highest one of the closest slice below a section index that has any. -/
def HighestBelow (slices : ExtTreeMap Int32 (List FeederOrder)) (i : Int32) (x : FeederOrder) :
    Prop :=
  ∃ (j : Int32) (orders : List FeederOrder), slices[j]? = some orders ∧ j < i ∧ x ∈ orders ∧
    (∀ y ∈ orders, y ≤ x) ∧
    ∀ (k : Int32) others, slices[k]? = some others → j < k → k < i → others = []

/-- The order is the lowest one of the closest slice above a section index that has any. -/
def LowestAbove (slices : ExtTreeMap Int32 (List FeederOrder)) (i : Int32) (x : FeederOrder) :
    Prop :=
  ∃ (j : Int32) (orders : List FeederOrder), slices[j]? = some orders ∧ i < j ∧ x ∈ orders ∧
    (∀ y ∈ orders, x ≤ y) ∧
    ∀ (k : Int32) others, slices[k]? = some others → i < k → k < j → others = []

/-- The orders of a slice, or what bounds it from further on if it has none. -/
def OwnOr (orders : List FeederOrder) (bound : FeederOrder → Prop) (x : FeederOrder) : Prop :=
  x ∈ orders ∨ orders = [] ∧ bound x

/-- The order comes after all those below and before all those above. With none below, it is
not negative. -/
structure FitsBetween (below above : FeederOrder → Prop) (o : FeederOrder) : Prop where
  lower : ∀ x, below x → x < o
  nonneg : (¬∃ x, below x) → 0 ≤ o
  upper : ∀ x, above x → o < x

/-- The highest order is taken, and nothing is above: no order is left. -/
def Exhausted (below above : FeederOrder → Prop) : Prop :=
  below .highest ∧ ¬∃ x, above x

/-- The range holds the orders that fit, and there is none just when none fits. Where the
orders are exhausted, it holds the highest one although that one is taken. -/
structure Leaves (range : Option OrderRange) (below above : FeederOrder → Prop) : Prop where
  contains_iff : ∀ o, (∃ r, range = some r ∧ r.contains o = true) ↔
    FitsBetween below above o ∨ Exhausted below above ∧ o = .highest
  eq_none_iff : range = none ↔ (∀ o, ¬FitsBetween below above o) ∧ ¬Exhausted below above

end Network

section Bounds

/-- What a search finds first in a list that is in order is closest. -/
theorem findSome?_eq_some_iff_of_pairwise {α β : Type} {R : α → α → Prop} {f : α → Option β}
    {l : List α} {y : β} (hasymm : ∀ a b, R a b → ¬R b a) (hl : l.Pairwise R) :
    l.findSome? f = some y ↔ ∃ a ∈ l, f a = some y ∧ ∀ b ∈ l, R b a → f b = none := by
  rw [List.findSome?_eq_some_iff]
  constructor
  · rintro ⟨before, a, after, rfl, ha, hnone⟩
    refine ⟨a, by simp, ha, fun b hb hba => ?_⟩
    rcases List.mem_append.mp hb with hb | hb
    · exact hnone b hb
    · rcases List.mem_cons.mp hb with rfl | hb
      · exact absurd hba (hasymm _ _ hba)
      · have hab := (List.pairwise_cons.mp (List.pairwise_append.mp hl).2.1).1 b hb
        exact absurd hba (hasymm _ _ hab)
  · rintro ⟨a, ha, hfa, hnone⟩
    obtain ⟨before, after, rfl⟩ := List.append_of_mem ha
    refine ⟨before, a, after, rfl, hfa, fun b hb => hnone b (List.mem_append_left _ hb) ?_⟩
    exact (List.pairwise_append.mp hl).2.2 b hb a List.mem_cons_self

theorem highestBefore_eq_some_iff : highestBefore slices i = some x ↔ HighestBelow slices i x := by
  have hsorted := List.pairwise_reverse.mpr ((pairwise_toList slices).filter (·.1 < i))
  rw [highestBefore, findSome?_eq_some_iff_of_pairwise
    (fun a b h => Int32.not_lt.mpr (Int32.le_of_lt h)) hsorted]
  simp only [List.mem_reverse, List.mem_filter, ExtTreeMap.mem_toList_iff_getElem?_eq_some,
    decide_eq_true_eq, List.max?_eq_some_iff, List.max?_eq_none_iff, Prod.exists, Prod.forall]
  constructor
  · rintro ⟨j, orders, ⟨hj, hji⟩, ⟨hx, hall⟩, hclosest⟩
    exact ⟨j, orders, hj, hji, hx, hall, fun k others hk hjk hki => hclosest k others ⟨hk, hki⟩ hjk⟩
  · rintro ⟨j, orders, hj, hji, hx, hall, hclosest⟩
    exact ⟨j, orders, ⟨hj, hji⟩, ⟨hx, hall⟩, fun k others hk hjk => hclosest k others hk.1 hjk hk.2⟩

theorem lowestAfter_eq_some_iff : lowestAfter slices i = some x ↔ LowestAbove slices i x := by
  have hsorted := (pairwise_toList slices).filter (i < ·.1)
  rw [lowestAfter, findSome?_eq_some_iff_of_pairwise
    (fun a b h => Int32.not_lt.mpr (Int32.le_of_lt h)) hsorted]
  simp only [List.mem_filter, ExtTreeMap.mem_toList_iff_getElem?_eq_some,
    decide_eq_true_eq, List.min?_eq_some_iff, List.min?_eq_none_iff, Prod.exists, Prod.forall]
  constructor
  · rintro ⟨j, orders, ⟨hj, hij⟩, ⟨hx, hall⟩, hclosest⟩
    exact ⟨j, orders, hj, hij, hx, hall, fun k others hk hik hkj => hclosest k others ⟨hk, hik⟩ hkj⟩
  · rintro ⟨j, orders, hj, hij, hx, hall, hclosest⟩
    exact ⟨j, orders, ⟨hj, hij⟩, ⟨hx, hall⟩, fun k others hk hkj => hclosest k others hk.1 hk.2 hkj⟩

namespace Tightest

variable {tighter : FeederOrder → FeederOrder → Prop} {own : Option FeederOrder}

theorem own_or (hown : Tightest tighter own (· ∈ orders)) (h : Tightest tighter bound side) :
    Tightest tighter (own.or bound) (OwnOr orders side) := by
  cases own with
  | some x =>
    obtain ⟨hx, hall⟩ := hown.of_some x rfl
    refine ⟨fun y hy => ?_, fun hnone => by cases hnone⟩
    cases hy
    refine ⟨Or.inl hx, fun z hz => ?_⟩
    rcases hz with hz | ⟨rfl, -⟩
    · exact hall z hz
    · cases hx
  | none =>
    have hempty : orders = [] := List.eq_nil_iff_forall_not_mem.mpr fun x hx =>
      hown.of_none rfl ⟨x, hx⟩
    have hiff : OwnOr orders side = side := by
      funext x
      simp [OwnOr, hempty]
    rw [hiff, Option.none_or]
    exact h

end Tightest

theorem exists_orderRange?_iff {low high : FeederOrder} :
    (∃ r, orderRange? low high = some r ∧ r.contains o = true) ↔ low ≤ o ∧ o ≤ high := by
  simp only [orderRange?, Option.ite_none_right_eq_some, Option.some.injEq]
  constructor
  · rintro ⟨r, ⟨-, rfl⟩, hcontains⟩
    simpa [OrderRange.contains] using hcontains
  · rintro ⟨hlow, hhigh⟩
    exact ⟨_, ⟨Int32.le_trans hlow hhigh, rfl⟩, by simp [OrderRange.contains, hlow, hhigh]⟩

theorem orderRange?_eq_none_iff {low high : FeederOrder} :
    orderRange? low high = none ↔ ∀ o, ¬(low ≤ o ∧ o ≤ high) := by
  simp only [orderRange?, ite_eq_right_iff, reduceCtorEq, imp_false]
  constructor
  · rintro hempty o ⟨hlow, hhigh⟩
    exact hempty (Int32.le_trans hlow hhigh)
  · exact fun hnone hle => hnone low ⟨Int32.le_refl low, hle⟩

/-- An order is within the bounds if it fits. A lower bound that is the lowest order leaves no
order to the other side, but the highest order is its own upper bound. -/
theorem within_bounds_iff (hlo : Tightest (· ≤ ·) lo below) (hhi : Tightest (· ≥ ·) hi above) :
    lowFrom lo ≤ o ∧ o ≤ highFrom hi ↔
      FitsBetween below above o ∨ Exhausted below above ∧ o = .highest := by
  rw [hlo.lowFrom_le_iff, hhi.le_highFrom_iff]
  constructor
  · rintro ⟨⟨hlower, hnonneg⟩ | ⟨htop, hhighest⟩, hupper | ⟨-, hlowest⟩⟩
    · exact Or.inl ⟨hlower, hnonneg, hupper⟩
    · subst hlowest
      refine absurd (hnonneg fun ⟨x, hx⟩ => ?_) (by decide)
      exact Int32.not_lt.mpr (Int32.minValue_le x) (hlower x hx)
    · subst hhighest
      refine Or.inr ⟨⟨htop, fun ⟨x, hx⟩ => ?_⟩, rfl⟩
      exact Int32.not_lt.mpr (Int32.le_maxValue x) (hupper x hx)
    · exact absurd (hhighest.symm.trans hlowest) (by decide)
  · rintro (h | ⟨⟨htop, hno⟩, rfl⟩)
    · exact ⟨Or.inl ⟨h.lower, h.nonneg⟩, Or.inl h.upper⟩
    · exact ⟨Or.inr ⟨htop, rfl⟩, Or.inl fun x hx => absurd ⟨x, hx⟩ hno⟩

theorem leaves_orderRange? (hlo : Tightest (· ≤ ·) lo below) (hhi : Tightest (· ≥ ·) hi above) :
    Leaves (orderRange? (lowFrom lo) (highFrom hi)) below above where
  contains_iff := fun _ => exists_orderRange?_iff.trans (within_bounds_iff hlo hhi)
  eq_none_iff := by
    simp only [orderRange?_eq_none_iff, within_bounds_iff hlo hhi, not_or, not_and, forall_and]
    exact and_congr_right fun _ => ⟨fun h he => h _ he rfl, fun h _ he => absurd he h⟩

end Bounds

namespace Network

theorem tightest_highestBefore (slices : ExtTreeMap Int32 (List FeederOrder)) (i : Int32) :
    Tightest (· ≤ ·) (highestBefore slices i) (HighestBelow slices i) :=
  .of_unique Int32.le_refl fun _ => highestBefore_eq_some_iff

theorem tightest_lowestAfter (slices : ExtTreeMap Int32 (List FeederOrder)) (i : Int32) :
    Tightest (· ≥ ·) (lowestAfter slices i) (LowestAbove slices i) :=
  .of_unique Int32.le_refl fun _ => lowestAfter_eq_some_iff

theorem Coherent.exists_slice (h : n.Coherent False) {b : BusbarSection} {p : BusbarPosition}
    (hb : n.busbarSections[id]? = some b) (hp : b.position = some p) :
    ∃ orders, (n.sliceOrders b.voltageLevel)[p.sectionIndex]? = some orders := by
  obtain ⟨w, hw, -⟩ := h.holds_rail (h.hasRail hb)
  have hid : b.id = id := h.connectable_id id (.busbarSection b) hb
  have hplaced : (b, p) ∈ n.placedSections b.voltageLevel :=
    h.mem_placedSections_iff.mpr ⟨hid ▸ hb, rfl, hp⟩
  have hin : p.sectionIndex ∈ n.sliceOrders b.voltageLevel := by
    rw [sliceOrders, ExtTreeMap.mem_map, mem_sliceMembers_iff hw]
    exact ⟨b, p, hplaced, rfl⟩
  exact mem_iff_exists_getElem?.mp hin

/-- The orders left to a busbar section of the section index, and to either side of its own
slice. -/
structure LeavesOrders (n : Network) (id : String) (slices : ExtTreeMap Int32 (List FeederOrder))
    (i : Int32) (own : List FeederOrder) : Prop where
  around : ∃ range, n.positionRange id = .ok range ∧
    Leaves range (HighestBelow slices i) (LowestAbove slices i)
  before : ∃ range, n.ordersFreeBefore id = .ok range ∧
    Leaves range (HighestBelow slices i) (OwnOr own (LowestAbove slices i))
  after : ∃ range, n.ordersFreeAfter id = .ok range ∧
    Leaves range (OwnOr own (HighestBelow slices i)) (LowestAbove slices i)

theorem leavesOrders_of_slice {b : BusbarSection} {p : BusbarPosition}
    (hb : n.busbarSections[id]? = some b) (hp : b.position = some p)
    (hown : (n.sliceOrders b.voltageLevel)[p.sectionIndex]? = some orders) :
    n.LeavesOrders id (n.sliceOrders b.voltageLevel) p.sectionIndex orders := by
  have hlo := tightest_highestBefore (n.sliceOrders b.voltageLevel) p.sectionIndex
  have hhi := tightest_lowestAfter (n.sliceOrders b.voltageLevel) p.sectionIndex
  refine ⟨⟨_, ?_, leaves_orderRange? hlo hhi⟩,
    ⟨_, ?_, leaves_orderRange? hlo ((Tightest.min? orders).own_or hhi)⟩,
    ⟨_, ?_, leaves_orderRange? ((Tightest.max? orders).own_or hlo) hhi⟩⟩
  · simp [positionRange, busbarSection, hb, hp, bind, Except.bind, pure, Except.pure]
  · simp [ordersFreeBefore, placedSection, busbarSection, hb, hp, hown, bind, Except.bind, pure,
      Except.pure]
  · simp [ordersFreeAfter, placedSection, busbarSection, hb, hp, hown, bind, Except.bind, pure,
      Except.pure]

/-- In every network that can come about, the slices around a busbar section with a position
leave to it exactly the orders between them, and to either side of its own slice exactly
those on that side. Only where the highest order is taken and nothing bounds the orders from
above is that order left once more. -/
theorem orders_left_exactly (id : String) (serial : Nat) (ops : List Operation) {key : String}
    {b : BusbarSection} {p : BusbarPosition}
    (hb : ((empty id serial).after ops).busbarSections[key]? = some b)
    (hp : b.position = some p) :
    ∃ own, (((empty id serial).after ops).sliceOrders b.voltageLevel)[p.sectionIndex]? = some own ∧
      ((empty id serial).after ops).LeavesOrders key
        (((empty id serial).after ops).sliceOrders b.voltageLevel) p.sectionIndex own := by
  have hn := (coherent_empty False id serial).after ops False.elim
  obtain ⟨own, hown⟩ := hn.exists_slice hb hp
  exact ⟨own, hown, leavesOrders_of_slice hb hp hown⟩

/-- Three sections of a busbar, with a load on the first one and another on the last one. -/
def threeSections (low : FeederOrder) (high : Option FeederOrder) : List Operation :=
  [.change (.addVoltageLevel { id := "V" }),
    .change (.addBusbarSection
      { voltageLevel := "V", id := "A", node := 0, position := some ⟨1, 1⟩ }),
    .change (.addBusbarSection
      { voltageLevel := "V", id := "B", node := 1, position := some ⟨1, 2⟩ }),
    .change (.addBusbarSection
      { voltageLevel := "V", id := "C", node := 2, position := some ⟨1, 3⟩ }),
    .change (.addConnectable (.injection
      { owner := 0, id := "LD1", terminal := some (.atNode "V" 3) })),
    .change (.addConnectable (.injection
      { owner := 0, id := "LD2", terminal := some (.atNode "V" 4) })),
    .change (.addSwitch { voltageLevel := "V", id := "D1", node1 := 0, node2 := 3 }),
    .change (.addSwitch { voltageLevel := "V", id := "D2", node1 := 2, node2 := 4 }),
    .change (.setFeederPosition "LD1" (some { feeder1 := some ⟨none, some low, .top⟩ })),
    .change (.setFeederPosition "LD2" (some { feeder1 := some ⟨none, high, .top⟩ }))]

theorem orders_left_exactly_threeSections :
    ((empty "N" 0).after (threeSections 10 (some 20))).LeavesOrders "B"
        (((empty "N" 0).after (threeSections 10 (some 20))).sliceOrders "V") 2 [] ∧
      ((empty "N" 0).after (threeSections 10 (some 20))).positionRange "B" =
        .ok (some ⟨11, 19⟩) := by
  have hb : ((empty "N" 0).after (threeSections 10 (some 20))).busbarSections["B"]? =
      some ⟨"B", none, "V", 1, some ⟨1, 2⟩⟩ := by
    decide +kernel
  obtain ⟨own, hown, hleaves⟩ := orders_left_exactly "N" 0 (threeSections 10 (some 20)) hb rfl
  have hempty : (((empty "N" 0).after (threeSections 10 (some 20))).sliceOrders "V")[(2 : Int32)]? =
      some [] := by
    decide +kernel
  cases hempty.symm.trans hown
  exact ⟨hleaves, by decide +kernel⟩

/-- The highest order is left to the second section, although the first one has it, and
above the slice of the first section, although it is in that slice. -/
theorem highest_order_left_again :
    (∃ r, ((empty "N" 0).after (threeSections .highest none)).positionRange "B" = .ok (some r) ∧
        r.contains .highest = true ∧
        ¬FitsBetween
          (HighestBelow (((empty "N" 0).after (threeSections .highest none)).sliceOrders "V") 2)
          (LowestAbove (((empty "N" 0).after (threeSections .highest none)).sliceOrders "V") 2)
          .highest) ∧
      ∃ r own, ((empty "N" 0).after (threeSections .highest none)).ordersFreeAfter "A" =
          .ok (some r) ∧ r.contains .highest = true ∧
        (((empty "N" 0).after (threeSections .highest none)).sliceOrders "V")[(1 : Int32)]? =
          some own ∧ .highest ∈ own := by
  refine ⟨⟨⟨.highest, .highest⟩, by decide +kernel, by decide, fun hfits => ?_⟩,
    ⟨.highest, .highest⟩, [.highest], by decide +kernel, by decide, by decide +kernel,
    List.mem_singleton_self _⟩
  have hbelow := highestBefore_eq_some_iff.mp (show highestBefore
    (((empty "N" 0).after (threeSections .highest none)).sliceOrders "V") 2 =
      some FeederOrder.highest by decide +kernel)
  exact Int32.lt_irrefl (hfits.lower _ hbelow)

end Network

end Switchyard
