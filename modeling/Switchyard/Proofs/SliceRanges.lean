import Switchyard.Proofs.FeederRanks
import Switchyard.Proofs.Indices
import Switchyard.Proofs.Slices

namespace Switchyard

open Std Network

variable {n : Network} {vl id : String} {i j : Int32} {o x : FeederOrder}
  {orders : List FeederOrder}
  {slices : ExtTreeMap Int32 (List FeederOrder)} {bound : Option FeederOrder}
  {side : FeederOrder → Prop}

namespace FeederOrder

/-- The highest order counts as being above itself. -/
theorem above_le_iff : x.above ≤ o ↔ x < o ∨ x = highest ∧ o = highest := by
  have hmax := Int32.le_maxValue o
  unfold above highest
  split
  next he => grind
  next hne => grind

theorem le_below_iff : o ≤ x.below ↔ o < x ∨ x = lowest ∧ o = lowest := by
  have hmin := Int32.minValue_le o
  unfold below lowest
  split
  next he => grind
  next hne => grind

end FeederOrder

/-- The bound is the tightest of the orders on its side, if there are any. -/
structure Tightest (tighter : FeederOrder → FeederOrder → Prop) (bound : Option FeederOrder)
    (side : FeederOrder → Prop) : Prop where
  of_some : ∀ x, bound = some x → side x ∧ ∀ y, side y → tighter y x
  of_none : bound = none → ¬∃ x, side x

namespace Tightest

variable {tighter : FeederOrder → FeederOrder → Prop}

theorem of_unique (hrefl : ∀ x, tighter x x) (h : ∀ x, bound = some x ↔ side x) :
    Tightest tighter bound side where
  of_some := fun x hx => by
    refine ⟨(h x).mp hx, fun y hy => ?_⟩
    cases hx.symm.trans ((h y).mpr hy)
    exact hrefl x
  of_none := fun hnone ⟨x, hx⟩ => by
    rw [(h x).mpr hx] at hnone
    cases hnone

theorem max? (orders : List FeederOrder) : Tightest (· ≤ ·) orders.max? (· ∈ orders) where
  of_some := fun _ hx => List.max?_eq_some_iff.mp hx
  of_none := fun hnone ⟨_, hx⟩ => by
    rw [List.max?_eq_none_iff.mp hnone] at hx
    cases hx

theorem min? (orders : List FeederOrder) : Tightest (· ≥ ·) orders.min? (· ∈ orders) where
  of_some := fun _ hx => List.min?_eq_some_iff.mp hx
  of_none := fun hnone ⟨_, hx⟩ => by
    rw [List.min?_eq_none_iff.mp hnone] at hx
    cases hx

/-- In a list in order, what the first element with a value has is the tightest of all. -/
theorem findSome? {α : Type} {value : α → Option FeederOrder} {mem : α → FeederOrder → Prop}
    {l : List α} (hvalue : ∀ a ∈ l, Tightest tighter (value a) (mem a))
    (hl : l.Pairwise fun a b => ∀ x, mem a x → ∀ y, mem b y → tighter y x) :
    Tightest tighter (l.findSome? value) fun x => ∃ a ∈ l, mem a x := by
  induction l with
  | nil => exact ⟨nofun, fun _ ⟨_, _, ha, _⟩ => List.not_mem_nil ha⟩
  | cons a rest ih =>
    obtain ⟨ha, hrest⟩ := List.pairwise_cons.mp hl
    have htail := ih (fun b hb => hvalue b (List.mem_cons_of_mem a hb)) hrest
    rw [List.findSome?_cons]
    cases hfound : value a with
    | some x =>
      obtain ⟨hx, hall⟩ := (hvalue a List.mem_cons_self).of_some x hfound
      refine ⟨fun y hy => ?_, nofun⟩
      cases hy
      refine ⟨⟨a, List.mem_cons_self, hx⟩, fun z ⟨b, hb, hz⟩ => ?_⟩
      rcases List.mem_cons.mp hb with rfl | hb
      · exact hall z hz
      · exact ha b hb x hx z hz
    | none =>
      have hno := not_exists.mp ((hvalue a List.mem_cons_self).of_none hfound)
      simpa [hno] using htail

theorem lowFrom_le_iff (h : Tightest (· ≤ ·) bound side) :
    lowFrom bound ≤ o ↔ ((∀ x, side x → x < o) ∧ ((¬∃ x, side x) → 0 ≤ o)) ∨
      side .highest ∧ o = .highest := by
  cases bound with
  | none =>
    have hno := not_exists.mp (h.of_none rfl)
    simp [lowFrom, hno]
  | some x =>
    obtain ⟨hx, hall⟩ := h.of_some x rfl
    rw [lowFrom, Option.map_some, Option.getD_some, FeederOrder.above_le_iff]
    constructor
    · rintro (hlt | ⟨rfl, rfl⟩)
      · refine Or.inl ⟨fun y hy => ?_, fun hno => absurd ⟨x, hx⟩ hno⟩
        exact Int32.lt_of_le_of_lt (hall y hy) hlt
      · exact Or.inr ⟨hx, rfl⟩
    · rintro (⟨hlt, -⟩ | ⟨htop, rfl⟩)
      · exact Or.inl (hlt x hx)
      · exact Or.inr ⟨Int32.le_antisymm (Int32.le_maxValue x) (hall _ htop), rfl⟩

theorem le_highFrom_iff (h : Tightest (· ≥ ·) bound side) :
    o ≤ highFrom bound ↔ (∀ x, side x → o < x) ∨ side .lowest ∧ o = .lowest := by
  cases bound with
  | none =>
    have hno := not_exists.mp (h.of_none rfl)
    have hmax : o ≤ FeederOrder.highest := Int32.le_maxValue o
    simp [highFrom, hno, hmax]
  | some x =>
    obtain ⟨hx, hall⟩ := h.of_some x rfl
    rw [highFrom, Option.map_some, Option.getD_some, FeederOrder.le_below_iff]
    constructor
    · rintro (hlt | ⟨rfl, rfl⟩)
      · exact Or.inl fun y hy => Int32.lt_of_lt_of_le hlt (hall y hy)
      · exact Or.inr ⟨hx, rfl⟩
    · rintro (hlt | ⟨hbottom, rfl⟩)
      · exact Or.inl (hlt x hx)
      · exact Or.inr ⟨Int32.le_antisymm (hall _ hbottom) (Int32.minValue_le x), rfl⟩

end Tightest

theorem pairwise_toList (slices : ExtTreeMap Int32 (List FeederOrder)) :
    slices.toList.Pairwise fun a b => a.1 < b.1 :=
  ExtTreeMap.ordered_keys_toList.imp compare_eq_lt.mp

theorem getElem?_of_mem_filter {p : Int32 × List FeederOrder → Bool}
    {a : Int32 × List FeederOrder} (ha : a ∈ slices.toList.filter p) : slices[a.1]? = some a.2 :=
  ExtTreeMap.mem_toList_iff_getElem?_eq_some.mp (List.mem_of_mem_filter ha)

/-- Each order of a slice is below each order of the slices that come after. -/
def SlicesInOrder (slices : ExtTreeMap Int32 (List FeederOrder)) : Prop :=
  ∀ (i j : Int32) (xs ys : List FeederOrder), i < j → slices[i]? = some xs →
    slices[j]? = some ys → ∀ x ∈ xs, ∀ y ∈ ys, x < y

namespace SlicesInOrder

variable (h : SlicesInOrder slices)
include h

theorem tightest_below (i : Int32) : Tightest (· ≤ ·) (highestBefore slices i)
    fun x => ∃ a ∈ (slices.toList.filter (·.1 < i)).reverse, x ∈ a.2 :=
  .findSome? (fun a _ => .max? a.2) <| List.pairwise_reverse.mpr <|
    ((pairwise_toList slices).filter _).imp_of_mem fun ha hb hab x hx y hy =>
      Int32.le_of_lt
        (h _ _ _ _ hab (getElem?_of_mem_filter ha) (getElem?_of_mem_filter hb) y hy x hx)

theorem tightest_above (i : Int32) : Tightest (· ≥ ·) (lowestAfter slices i)
    fun x => ∃ a ∈ slices.toList.filter (i < ·.1), x ∈ a.2 :=
  .findSome? (fun a _ => .min? a.2) <|
    ((pairwise_toList slices).filter _).imp_of_mem fun ha hb hab x hx y hy =>
      Int32.le_of_lt
        (h _ _ _ _ hab (getElem?_of_mem_filter ha) (getElem?_of_mem_filter hb) x hx y hy)

/-- A new order within the bounds of its slice leaves the slices in order. -/
theorem insert (hi : slices[i]? = some orders)
    (hlow : lowFrom (highestBefore slices i) ≤ o) (hhigh : o ≤ highFrom (lowestAfter slices i))
    (hnew : ∀ (k : Int32) xs, slices[k]? = some xs → o ∉ xs) :
    SlicesInOrder (slices.insert i (insertSorted o orders)) := by
  have hbelow : ∀ (k : Int32) xs, slices[k]? = some xs → k < i → ∀ x ∈ xs, x < o := by
    intro k xs hk hki x hx
    have hin : (k, xs) ∈ (slices.toList.filter (·.1 < i)).reverse := by
      simpa [ExtTreeMap.mem_toList_iff_getElem?_eq_some, hki] using hk
    rcases (h.tightest_below i).lowFrom_le_iff.mp hlow with hlt | ⟨⟨a, ha, htop⟩, rfl⟩
    · exact hlt.1 x ⟨_, hin, hx⟩
    · exact absurd htop (hnew _ _ (getElem?_of_mem_filter (List.mem_reverse.mp ha)))
  have habove : ∀ (k : Int32) xs, slices[k]? = some xs → i < k → ∀ x ∈ xs, o < x := by
    intro k xs hk hik x hx
    have hin : (k, xs) ∈ slices.toList.filter (i < ·.1) := by
      simpa [ExtTreeMap.mem_toList_iff_getElem?_eq_some, hik] using hk
    rcases (h.tightest_above i).le_highFrom_iff.mp hhigh with hlt | ⟨⟨a, ha, hbottom⟩, rfl⟩
    · exact hlt x ⟨_, hin, hx⟩
    · exact absurd hbottom (hnew _ _ (getElem?_of_mem_filter ha))
  intro j k xs ys hjk hj hk x hx y hy
  rw [ExtTreeMap.getElem?_insert] at hj hk
  split at hj
  next hij =>
    obtain rfl := LawfulEqCmp.eq_of_compare hij
    rw [if_neg (by simpa using Int32.ne_of_lt hjk)] at hk
    cases hj
    rcases mem_insertSorted.mp hx with rfl | hx
    · exact habove _ _ hk hjk y hy
    · exact h _ _ _ _ hjk hi hk x hx y hy
  next hij =>
    split at hk
    next hik =>
      obtain rfl := LawfulEqCmp.eq_of_compare hik
      cases hk
      rcases mem_insertSorted.mp hy with rfl | hy
      · exact hbelow _ _ hj hjk x hx
      · exact h _ _ _ _ hjk hj hi x hx y hy
    next => exact h _ _ _ _ hjk hj hk x hx y hy

end SlicesInOrder

namespace Network

theorem mem_feederOrders_of_mem_slice (hi : (n.sliceOrders vl)[i]? = some orders)
    (ho : o ∈ orders) : o ∈ n.feederOrders vl := by
  rw [sliceOrders, ExtTreeMap.getElem?_map] at hi
  obtain ⟨members, -, rfl⟩ := Option.map_eq_some_iff.mp hi
  rw [(sortOrders_perm _).mem_iff, List.mem_flatMap] at ho
  obtain ⟨c, hc, ho⟩ := ho
  obtain ⟨x, -, hx⟩ := List.mem_filterMap.mp hc
  exact mem_feederOrders_iff.mpr ⟨x, c, keeps_of_connectable? hx, ho⟩

theorem positionRange_eq_some {t : BusbarSection} {p : BusbarPosition} {r : OrderRange}
    (ht : n.busbarSections[id]? = some t) (hp : t.position = some p)
    (hr : n.positionRange id = .ok (some r)) (ho : r.contains o = true) :
    lowFrom (highestBefore (n.sliceOrders t.voltageLevel) p.sectionIndex) ≤ o ∧
      o ≤ highFrom (lowestAfter (n.sliceOrders t.voltageLevel) p.sectionIndex) := by
  simp only [positionRange, busbarSection, ht, hp, bind, Except.bind, pure, Except.pure,
    Except.ok.injEq, orderRange?, Option.ite_none_right_eq_some, Option.some.injEq] at hr
  obtain ⟨-, rfl⟩ := hr
  simpa [OrderRange.contains] using ho

/-- An order that ranks leaves the slices in order. -/
theorem Ranks.slicesInOrder {bay : FeederBay} {t : BusbarSection} {p : BusbarPosition}
    (h : n.Ranks bay t o) (hp : t.position = some p)
    (hi : (n.sliceOrders t.voltageLevel)[p.sectionIndex]? = some orders)
    (hordered : SlicesInOrder (n.sliceOrders t.voltageLevel)) :
    SlicesInOrder ((n.sliceOrders t.voltageLevel).insert p.sectionIndex
      (insertSorted o orders)) := by
  obtain ⟨r, hr, hcontains⟩ := h.inRange
  obtain ⟨hlow, hhigh⟩ := positionRange_eq_some h.target hp hr hcontains
  exact hordered.insert hi hlow hhigh fun k xs hk ho =>
    h.untaken (mem_feederOrders_of_mem_slice hk ho)

end Network

end Switchyard
