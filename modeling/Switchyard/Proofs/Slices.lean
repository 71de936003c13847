import Switchyard.Proofs.BayRails
import Switchyard.Proofs.Clearing
import Switchyard.Proofs.Tours

namespace Switchyard

open Std Network

variable {n : Network} {w : Wiring} {b : BusbarSection} {p : BusbarPosition} {vl x : String}
  {i : Int32} {node : Node} {o : FeederOrder}

section Sorting

theorem insertSorted_perm (o : FeederOrder) (xs : List FeederOrder) :
    (insertSorted o xs).Perm (o :: xs) := by
  induction xs with
  | nil => rfl
  | cons y ys ih =>
    rw [insertSorted]
    split
    · rfl
    · exact (ih.cons y).trans (.swap o y ys)

theorem sortOrders_perm (xs : List FeederOrder) : (sortOrders xs).Perm xs := by
  induction xs with
  | nil => rfl
  | cons y ys ih => exact (insertSorted_perm y _).trans (ih.cons y)

theorem mem_insertSorted {xs : List FeederOrder} {y : FeederOrder} :
    y ∈ insertSorted o xs ↔ y = o ∨ y ∈ xs := by
  rw [(insertSorted_perm o xs).mem_iff, List.mem_cons]

theorem insertSorted_comm (a b : FeederOrder) (xs : List FeederOrder) :
    insertSorted a (insertSorted b xs) = insertSorted b (insertSorted a xs) := by
  induction xs with
  | nil => grind [insertSorted]
  | cons y ys ih => grind [insertSorted]

/-- The order in which the values come does not matter. -/
theorem sortOrders_congr {xs ys : List FeederOrder} (h : xs.Perm ys) :
    sortOrders xs = sortOrders ys := by
  have : LeftCommutative insertSorted := ⟨insertSorted_comm⟩
  exact h.foldr_eq []

theorem insertSorted_sorted {xs : List FeederOrder} (h : xs.Pairwise (· ≤ ·)) :
    (insertSorted o xs).Pairwise (· ≤ ·) := by
  induction xs with
  | nil => exact List.pairwise_singleton _ o
  | cons y ys ih =>
    obtain ⟨hy, hys⟩ := List.pairwise_cons.mp h
    rw [insertSorted]
    split
    next hle =>
      refine List.pairwise_cons.mpr ⟨List.forall_mem_cons.mpr ⟨hle, fun z hz => ?_⟩, h⟩
      exact Int32.le_trans hle (hy z hz)
    next hle =>
      refine List.pairwise_cons.mpr ⟨fun z hz => ?_, ih hys⟩
      rcases mem_insertSorted.mp hz with rfl | hz
      · exact (Int32.le_total z y).resolve_left hle
      · exact hy z hz

theorem sortOrders_sorted (xs : List FeederOrder) : (sortOrders xs).Pairwise (· ≤ ·) := by
  induction xs with
  | nil => exact List.Pairwise.nil
  | cons y ys ih => exact insertSorted_sorted ih

end Sorting

namespace Network

/-- Paths of a section index pass the node: it holds no busbar section of another one. -/
def Crosses (n : Network) (w : Wiring) (i : Int32) (node : Node) : Prop :=
  ∀ a j, w.terminals[node]? = some a → n.sectionIndex? a.connectable = some j → j = i

theorem crosses_of_terminal {a : Attachment} (ha : w.terminals[node]? = some a) :
    n.Crosses w i node ↔ ∀ j, n.sectionIndex? a.connectable = some j → j = i := by
  simp only [Crosses, ha, Option.some.injEq]
  exact ⟨fun h j => h a j rfl, fun h _ j he => he ▸ h j⟩

theorem crosses_of_none (ha : w.terminals[node]? = none) : n.Crosses w i node := by
  simp [Crosses, ha]

/-- The connectable is met from a busbar section, on paths of its section index. -/
def MetFrom (n : Network) (w : Wiring) (b : BusbarSection) (i : Int32) (x : String) : Prop :=
  ∃ node a, Reaches w.edgeList (n.Crosses w i) b.node node ∧ w.terminals[node]? = some a ∧
    a.connectable = x

theorem mem_foldl_iff {step : ExtTreeSet String → Hop → ExtTreeSet String}
    {P : Hop → String → Prop} (hstep : ∀ met h x, x ∈ step met h ↔ x ∈ met ∨ P h x)
    (hops : List Hop) (met : ExtTreeSet String) (x : String) :
    x ∈ hops.foldl step met ↔ x ∈ met ∨ ∃ h ∈ hops, P h x := by
  induction hops generalizing met with
  | nil => simp
  | cons h rest ih => rw [List.foldl_cons, ih, hstep, List.exists_mem_cons_iff, or_assoc]

/-- What the walk of a slice makes of a node, and of the connectables met before. -/
def meet (n : Network) (w : Wiring) (i : Int32) (met : ExtTreeSet String) (h : Hop) :
    Verdict × ExtTreeSet String :=
  match w.terminals[h.target]? with
  | none => (.onward, met)
  | some a =>
    match n.sectionIndex? a.connectable with
    | some j => if j = i then (.onward, met.insert a.connectable) else (.leave, met)
    | none => (.onward, met.insert a.connectable)

theorem metFrom_eq (n : Network) (w : Wiring) (b : BusbarSection) (i : Int32) :
    n.metFrom w b i =
      (walk (n.meet w i) w.edgeList [b.node] [b.node] (ExtTreeSet.ofList [b.id])).2 :=
  rfl

open Classical in
theorem meet_fst (met : ExtTreeSet String) (h : Hop) :
    (n.meet w i met h).1 = if n.Crosses w i h.target then .onward else .leave := by
  cases ha : w.terminals[h.target]? with
  | none => simp [meet, ha, crosses_of_none ha]
  | some a =>
    cases hj : n.sectionIndex? a.connectable with
    | none => simp [meet, ha, crosses_of_terminal ha, hj]
    | some j =>
      simp only [meet, ha, crosses_of_terminal ha, hj, Option.some.injEq, forall_eq']
      split <;> rfl

theorem mem_meet_snd_iff (met : ExtTreeSet String) (h : Hop) (x : String) :
    x ∈ (n.meet w i met h).2 ↔ x ∈ met ∨ n.Crosses w i h.target ∧
      ∃ a, w.terminals[h.target]? = some a ∧ a.connectable = x := by
  cases ha : w.terminals[h.target]? with
  | none => simp [meet, ha]
  | some a =>
    cases hj : n.sectionIndex? a.connectable with
    | none => simp [meet, ha, crosses_of_terminal ha, hj, or_comm]
    | some j =>
      simp only [meet, ha, crosses_of_terminal ha, hj, Option.some.injEq, forall_eq',
        exists_eq_left']
      split
      next hsame => simp [hsame, or_comm]
      next hother => simp [hother]

/-- The walk from a busbar section finds what is met from it. -/
theorem mem_metFrom_iff (hb : w.terminals[b.node]? = some ⟨b.id, .one⟩) :
    x ∈ n.metFrom w b i ↔ n.MetFrom w b i x := by
  classical
  obtain ⟨hops, htour, hfold⟩ := walk_tour (n.meet w i) (n.Crosses w i) meet_fst w.edgeList b.node
    (ExtTreeSet.ofList [b.id])
  rw [metFrom_eq, hfold, mem_foldl_iff mem_meet_snd_iff]
  simp only [ExtTreeSet.mem_ofList, List.contains_iff_mem, List.mem_singleton]
  constructor
  · rintro (rfl | ⟨h, hh, hcrosses, a, ha, rfl⟩)
    · exact ⟨b.node, _, .refl, hb, rfl⟩
    · obtain ⟨he, halong⟩ := htour.along h hh
      exact ⟨h.target, a, (htour.reached h hh).tail ⟨⟨h.edge, he, halong.between⟩, hcrosses⟩, ha,
        rfl⟩
  · rintro ⟨node, a, hreaches, ha, rfl⟩
    have hstart : node = b.node → a.connectable = b.id := by
      rintro rfl
      cases hb.symm.trans ha
      rfl
    cases hreaches with
    | refl => exact Or.inl (hstart rfl)
    | @tail y _ hy hpassage =>
      obtain ⟨⟨e, he, hends⟩, hcrosses⟩ := hpassage
      obtain ⟨h, hh, rfl⟩ := htour.covers y hy e he (hends.touches_iff.mpr (Or.inl rfl))
      rcases (htour.along h hh).2.between.eq_or hends with ⟨-, rfl⟩ | ⟨rfl, -⟩
      · exact Or.inr ⟨h, hh, hcrosses, a, ha, rfl⟩
      -- The edge was taken the other way, from a node that the walk had come to before.
      · rcases htour.followed h hh with hsource | ⟨g, hg, hsource⟩
        · exact Or.inl (hstart hsource)
        · exact Or.inr ⟨g, hg, hsource ▸ hcrosses, a, hsource ▸ ha, rfl⟩

/-- A busbar section of the voltage level has the section index. -/
def HasSlice (n : Network) (vl : String) (i : Int32) : Prop :=
  ∃ b p, (b, p) ∈ n.placedSections vl ∧ p.sectionIndex = i

/-- The connectable is met from a busbar section of the section index. -/
def InSlice (n : Network) (vl : String) (w : Wiring) (i : Int32) (x : String) : Prop :=
  ∃ b p, (b, p) ∈ n.placedSections vl ∧ p.sectionIndex = i ∧ n.MetFrom w b i x

section Gathering

variable {met : BusbarSection × BusbarPosition → ExtTreeSet String}
  {slices : ExtTreeMap Int32 (ExtTreeSet String)} {placed : List (BusbarSection × BusbarPosition)}

/-- Each placed section adds what is met from it to the slice of its section index. -/
theorem mem_gathered_iff :
    i ∈ placed.foldl (fun slices x => slices.insert x.2.sectionIndex
        ((slices.getD x.2.sectionIndex ∅).union (met x))) slices ↔
      i ∈ slices ∨ ∃ x ∈ placed, x.2.sectionIndex = i := by
  induction placed generalizing slices with
  | nil => simp
  | cons y rest ih =>
    rw [List.foldl_cons, ih, ExtTreeMap.mem_insert, LawfulEqCmp.compare_eq_iff_eq,
      List.exists_mem_cons_iff, ← or_assoc, or_comm (b := i ∈ slices)]

theorem mem_getD_gathered_iff :
    x ∈ (placed.foldl (fun slices x => slices.insert x.2.sectionIndex
        ((slices.getD x.2.sectionIndex ∅).union (met x))) slices).getD i ∅ ↔
      x ∈ slices.getD i ∅ ∨ ∃ y ∈ placed, y.2.sectionIndex = i ∧ x ∈ met y := by
  induction placed generalizing slices with
  | nil => simp
  | cons y rest ih =>
    rw [List.foldl_cons, ih, ExtTreeMap.getD_insert, List.exists_mem_cons_iff, ← or_assoc]
    refine or_congr_left ?_
    by_cases hy : y.2.sectionIndex = i
    · simp [hy]
    · simp [hy]

end Gathering

/-- The orders of some connectables in a voltage level, sorted. -/
def sortedOrders (n : Network) (vl : String) (ids : List String) : List FeederOrder :=
  sortOrders ((ids.filterMap n.connectable?).flatMap (·.ordersIn vl))

section Lookup

variable (hw : n.inside? vl = some (.nodeBreaker w))
include hw

theorem sliceMembers_eq : n.sliceMembers vl =
    (n.placedSections vl).foldl (fun slices x => slices.insert x.2.sectionIndex
      ((slices.getD x.2.sectionIndex ∅).union (n.metFrom w x.1 x.2.sectionIndex))) ∅ := by
  rw [sliceMembers, wiring_eq_ok_iff.mpr hw]

theorem mem_sliceMembers_iff : i ∈ n.sliceMembers vl ↔ n.HasSlice vl i := by
  rw [sliceMembers_eq hw, mem_gathered_iff]
  simp [HasSlice]

theorem getElem?_sliceOrders_of_not_hasSlice (hi : ¬n.HasSlice vl i) :
    (n.sliceOrders vl)[i]? = none := by
  rw [sliceOrders, ExtTreeMap.getElem?_map, Option.map_eq_none_iff]
  rw [← mem_sliceMembers_iff hw] at hi
  exact ExtTreeMap.getElem?_eq_none hi

end Lookup

namespace Coherent

variable (h : n.Coherent False) (hw : n.inside? vl = some (.nodeBreaker w))
include h hw

theorem getElem?_terminals_of_placed (hb : (b, p) ∈ n.placedSections vl) :
    w.terminals[b.node]? = some ⟨b.id, .one⟩ := by
  obtain ⟨hid, rfl, -⟩ := h.mem_placedSections_iff.mp hb
  obtain ⟨_, hw', hterminal⟩ := h.holds_rail (h.hasRail hid)
  cases hw.symm.trans hw'
  exact hterminal

/-- Only paths of its own section index pass a placed section. -/
theorem crosses_placed_iff (hb : (b, p) ∈ n.placedSections vl) :
    n.Crosses w i b.node ↔ p.sectionIndex = i := by
  obtain ⟨hid, -, hp⟩ := h.mem_placedSections_iff.mp hb
  have hindex : n.sectionIndex? b.id = some p.sectionIndex := by
    rw [sectionIndex?, hid, Option.bind_some, hp, Option.map_some]
  rw [crosses_of_terminal (getElem?_terminals_of_placed h hw hb)]
  simp [hindex]

theorem mem_slice_iff : x ∈ (n.sliceMembers vl).getD i ∅ ↔ n.InSlice vl w i x := by
  rw [sliceMembers_eq hw, mem_getD_gathered_iff]
  simp only [ExtTreeMap.getD_empty, ExtTreeSet.not_mem_empty, false_or, Prod.exists, InSlice]
  constructor
  · rintro ⟨b, p, hb, rfl, hx⟩
    exact ⟨b, p, hb, rfl, (mem_metFrom_iff (getElem?_terminals_of_placed h hw hb)).mp hx⟩
  · rintro ⟨b, p, hb, rfl, hx⟩
    exact ⟨b, p, hb, rfl, (mem_metFrom_iff (getElem?_terminals_of_placed h hw hb)).mpr hx⟩

theorem exists_list_inSlice (i : Int32) :
    ∃ ids : List String, ids.Nodup ∧ ∀ x, x ∈ ids ↔ n.InSlice vl w i x := by
  refine ⟨((n.sliceMembers vl).getD i ∅).toList, nodup_toList _, fun x => ?_⟩
  rw [ExtTreeSet.mem_toList, mem_slice_iff h hw]

/-- The orders of a slice, from its connectables listed in any way. -/
theorem getElem?_sliceOrders (hi : n.HasSlice vl i) {ids : List String} (hnodup : ids.Nodup)
    (hids : ∀ x, x ∈ ids ↔ n.InSlice vl w i x) :
    (n.sliceOrders vl)[i]? = some (n.sortedOrders vl ids) := by
  obtain ⟨members, hmembers⟩ := mem_iff_exists_getElem?.mp ((mem_sliceMembers_iff hw).mpr hi)
  have hin : ∀ x, x ∈ members.toList ↔ n.InSlice vl w i x := by
    intro x
    rw [ExtTreeSet.mem_toList, ← mem_slice_iff h hw, ExtTreeMap.getD_eq_getD_getElem?, hmembers,
      Option.getD_some]
  have hperm : members.toList.Perm ids :=
    (List.perm_ext_iff_of_nodup (nodup_toList _) hnodup).mpr fun x => (hin x).trans (hids x).symm
  rw [sliceOrders, ExtTreeMap.getElem?_map, hmembers, Option.map_some, sortedOrders]
  exact congrArg some (sortOrders_congr ((hperm.filterMap _).flatMap_right _))

end Coherent

end Network

end Switchyard
