import Switchyard.Proofs.FailedCouplings
import Switchyard.Proofs.Indices
import Switchyard.Proofs.NewFeeders

namespace Switchyard

open Std Network

variable {n : Network} {b b1 b2 : BusbarSection} {p p1 p2 : BusbarPosition} {vl : String}
  {i k : Int32} {sections : List (Rail × Int32)} {leftOut : Option OuterBusbar}
  {outer : OuterBusbar}
  {r : Rail}

namespace OuterBusbar

theorem index?_mem (h : outer.index? sections = some k) : k ∈ sections.map (·.2) := by
  cases outer with
  | first => exact (List.min?_eq_some_iff.mp h).1
  | last => exact (List.max?_eq_some_iff.mp h).1

theorem exists_index? {x : Rail × Int32} (hx : x ∈ sections) (outer : OuterBusbar) :
    ∃ k, outer.index? sections = some k := by
  cases sections with
  | nil => cases hx
  | cons y ys => cases outer <;> exact ⟨_, rfl⟩

/-- If the first and the last busbar are one, all sections are on it. -/
theorem eq_of_index? (hfirst : first.index? sections = some k)
    (hlast : last.index? sections = some k) {x : Rail × Int32} (hx : x ∈ sections) : x.2 = k := by
  have hin : x.2 ∈ sections.map (·.2) := List.mem_map_of_mem hx
  have hge := (List.min?_eq_some_iff.mp hfirst).2 _ hin
  have hle := (List.max?_eq_some_iff.mp hlast).2 _ hin
  exact Int32.le_antisymm hle hge

end OuterBusbar

namespace Coupling

theorem mem_sectionsOf_iff (hn : n.Coherent False) {x : Rail × Int32} : x ∈ sectionsOf n vl i ↔
    ∃ (b : BusbarSection) (q : BusbarPosition), n.busbarSections[b.id]? = some b ∧
      b.voltageLevel = vl ∧ b.position = some q ∧ q.sectionIndex = i ∧
      x = (b.rail, q.busbarIndex) := by
  simp only [sectionsOf, List.mem_filterMap, hn.mem_parallelSections_iff, Option.map_eq_some_iff]
  constructor
  · rintro ⟨b, ⟨hb, hvl, q, hq, hi⟩, q', hq', rfl⟩
    cases hq.symm.trans hq'
    exact ⟨b, q, hb, hvl, hq, hi, rfl⟩
  · rintro ⟨b, q, hb, hvl, hq, hi, rfl⟩
    exact ⟨b, ⟨hb, hvl, q, hq, hi⟩, q, hq, rfl⟩

theorem map_fst_sectionsOf (n : Network) (vl : String) (i : Int32) :
    (sectionsOf n vl i).map (·.1) = (n.parallelSections vl i).map (·.rail) := by
  rw [sectionsOf, List.map_filterMap, ← List.filterMap_eq_map]
  refine List.filterMap_congr fun b hb => ?_
  have hplaced : b.position.any (·.sectionIndex == i) = true := (List.mem_filter.mp hb).2
  cases hq : b.position with
  | none =>
    rw [hq] at hplaced
    cases hplaced
  | some q => rfl

/-- The sections that are not on the busbar left out. -/
def keptSections (sections : List (Rail × Int32)) : Option OuterBusbar → List (Rail × Int32)
  | none => sections
  | some outer => sections.filter fun s => some s.2 ≠ outer.index? sections

theorem keptSections_sublist (sections : List (Rail × Int32)) (leftOut : Option OuterBusbar) :
    (keptSections sections leftOut).Sublist sections := by
  cases leftOut with
  | none => exact .refl sections
  | some outer => exact List.filter_sublist

/-- The rails that a side is connected to. -/
def sideRails (n : Network) (b : BusbarSection) (leftOut : Option OuterBusbar) : List Rail :=
  match b.position with
  | none => [b.rail]
  | some p => (keptSections (sectionsOf n b.voltageLevel p.sectionIndex) leftOut).map (·.1)

/-- The busbar that the first side leaves out, if both sections share a section index. -/
def leftOut? (n : Network) (b1 b2 : BusbarSection) : Option OuterBusbar :=
  match b1.position, b2.position with
  | some p1, some p2 =>
    if p1.sectionIndex = p2.sectionIndex then
      some (leftOutFirst (sectionsOf n b1.voltageLevel p1.sectionIndex) p1 p2)
    else none
  | _, _ => none

/-- The busbar that is left out is not that of the section itself. -/
def Spared (n : Network) (b : BusbarSection) (leftOut : Option OuterBusbar) : Prop :=
  ∀ p outer, b.position = some p → leftOut = some outer →
    outer.index? (sectionsOf n b.voltageLevel p.sectionIndex) ≠ some p.busbarIndex

/-- Of two sections on different busbars, neither is left out on its own side. -/
theorem leftOutFirst_index?_ne {r1 r2 : Rail} (h1 : (r1, p1.busbarIndex) ∈ sections)
    (h2 : (r2, p2.busbarIndex) ∈ sections) (hne : p1.busbarIndex ≠ p2.busbarIndex) :
    (leftOutFirst sections p1 p2).index? sections ≠ some p1.busbarIndex ∧
      (leftOutFirst sections p1 p2).other.index? sections ≠ some p2.busbarIndex := by
  unfold leftOutFirst
  split
  next hor =>
    refine ⟨fun hlast => ?_, fun hfirst => ?_⟩
    · rcases hor with hfirst | hlast'
      · exact hne (OuterBusbar.eq_of_index? hfirst hlast h2).symm
      · exact hne (Option.some.inj (hlast.symm.trans hlast'))
    · rcases hor with hfirst' | hlast
      · exact hne (Option.some.inj (hfirst'.symm.trans hfirst))
      · exact hne (OuterBusbar.eq_of_index? hfirst hlast h1)
  next hnone => exact not_or.mp hnone

variable (hn : n.Coherent False)

section Rails

variable (hb : n.busbarSections[b.id]? = some b)
include hn hb

theorem alongside_of_mem_sideRails (hr : r ∈ sideRails n b leftOut) :
    ∃ t, n.Alongside b t ∧ t.rail = r := by
  unfold sideRails at hr
  unfold Alongside
  cases hp : b.position with
  | none =>
    rw [hp] at hr
    cases List.mem_singleton.mp hr
    exact ⟨b, ⟨hb, rfl⟩, rfl⟩
  | some p =>
    rw [hp] at hr
    obtain ⟨x, hx, rfl⟩ := List.mem_map.mp hr
    have hin := (keptSections_sublist _ leftOut).subset hx
    obtain ⟨t, q, ht, hvl, hq, hi, rfl⟩ := (mem_sectionsOf_iff hn).mp hin
    exact ⟨t, ⟨ht, hvl, q, hq, hi⟩, rfl⟩

theorem hasRail_of_mem_sideRails (hr : r ∈ sideRails n b leftOut) :
    n.HasRail b.voltageLevel r := by
  obtain ⟨t, ⟨ht, hside⟩, rfl⟩ := alongside_of_mem_sideRails hn hb hr
  split at hside
  · exact hside.1 ▸ hn.hasRail ht
  · exact hside ▸ hn.hasRail ht

omit hb in
theorem nodup_sideRails : (sideRails n b leftOut).Nodup := by
  unfold sideRails
  cases b.position with
  | none => exact List.nodup_singleton _
  | some p =>
    have hall : ((sectionsOf n b.voltageLevel p.sectionIndex).map (·.1)).Nodup :=
      map_fst_sectionsOf n _ _ ▸ hn.nodup_parallelSections _ _
    exact ((keptSections_sublist _ leftOut).map _).nodup hall

theorem own_mem_sectionsOf (hp : b.position = some p) :
    (b.rail, p.busbarIndex) ∈ sectionsOf n b.voltageLevel p.sectionIndex :=
  (mem_sectionsOf_iff hn).mpr ⟨b, p, hb, rfl, hp, rfl, rfl⟩

theorem rail_mem_sideRails (hspared : Spared n b leftOut) : b.rail ∈ sideRails n b leftOut := by
  unfold sideRails
  cases hp : b.position with
  | none => exact List.mem_singleton_self _
  | some p =>
    have hown := own_mem_sectionsOf hn hb hp
    refine List.mem_map.mpr ⟨(b.rail, p.busbarIndex), ?_, rfl⟩
    cases leftOut with
    | none => exact hown
    | some outer =>
      refine List.mem_filter.mpr ⟨hown, decide_eq_true ?_⟩
      exact (hspared p outer hp rfl).symm

section TwoRails

variable {c : BusbarSection} {q : BusbarPosition} (hp : b.position = some p)
  (hc : n.busbarSections[c.id]? = some c) (hvl : c.voltageLevel = b.voltageLevel)
  (hq : c.position = some q) (hi : q.sectionIndex = p.sectionIndex) (hne : c.id ≠ b.id)
  (htwo : (n.parallelSections b.voltageLevel p.sectionIndex).length = 2)
include hp hc hvl hq hi hne htwo

/-- Two sections that share the index are all that have it, if there are two. -/
theorem eq_or_eq_of_two {x : Rail × Int32}
    (hx : x ∈ sectionsOf n b.voltageLevel p.sectionIndex) :
    x = (b.rail, p.busbarIndex) ∨ x = (c.rail, q.busbarIndex) := by
  have hown := own_mem_sectionsOf hn hb hp
  have hother : (c.rail, q.busbarIndex) ∈ sectionsOf n b.voltageLevel p.sectionIndex :=
    (mem_sectionsOf_iff hn).mpr ⟨c, q, hc, hvl, hq, hi, rfl⟩
  have hdiffer : (c.rail, q.busbarIndex) ≠ (b.rail, p.busbarIndex) := fun he =>
    hne (congrArg (fun x : Rail × Int32 => x.1.id) he)
  have hlength : (sectionsOf n b.voltageLevel p.sectionIndex).length = 2 := by
    rw [← htwo, ← List.length_map (f := (·.1)), map_fst_sectionsOf, List.length_map]
  obtain ⟨y, z, hyz⟩ := List.length_eq_two.mp hlength
  rw [hyz] at hown hother hx
  simp only [List.mem_cons, List.not_mem_nil, or_false] at hown hother hx
  grind

theorem eq_rail_of_two (hspared : Spared n b (some outer))
    (hr : r ∈ sideRails n b (some outer)) : r = b.rail := by
  have hboth : ∀ x ∈ sectionsOf n b.voltageLevel p.sectionIndex,
      x = (b.rail, p.busbarIndex) ∨ x = (c.rail, q.busbarIndex) := fun _ =>
    eq_or_eq_of_two hn hb hp hc hvl hq hi hne htwo
  simp only [sideRails, hp] at hr
  obtain ⟨x, hx, rfl⟩ := List.mem_map.mp hr
  obtain ⟨hin, hkept⟩ := List.mem_filter.mp hx
  rcases hboth x hin with rfl | rfl
  · rfl
  -- The busbar left out is one of the two, and not that of the section itself.
  · obtain ⟨k, hk⟩ := OuterBusbar.exists_index? hin outer
    obtain ⟨y, hy, rfl⟩ := List.mem_map.mp (OuterBusbar.index?_mem hk)
    rcases hboth y hy with rfl | rfl
    · exact absurd hk (hspared p outer hp rfl)
    · exact absurd hk.symm (of_decide_eq_true hkept)

end TwoRails

end Rails

/-- Both sides are connected to their own sections. -/
theorem spared_leftOut? (hn : n.Coherent False) (h1 : n.busbarSections[b1.id]? = some b1)
    (h2 : n.busbarSections[b2.id]? = some b2) (hvl : b1.voltageLevel = b2.voltageLevel)
    (hpositions : ∀ p, b1.position = some p → b2.position ≠ some p) :
    Spared n b1 (leftOut? n b1 b2) ∧ Spared n b2 ((leftOut? n b1 b2).map (·.other)) := by
  cases hp1 : b1.position with
  | none => simp [Spared, leftOut?, hp1]
  | some p1 =>
    cases hp2 : b2.position with
    | none => simp [Spared, leftOut?, hp2]
    | some p2 =>
      by_cases hi : p1.sectionIndex = p2.sectionIndex
      · have hne : p1.busbarIndex ≠ p2.busbarIndex := by
          intro he
          have hsame : p1 = p2 := by
            cases p1
            cases p2
            simp_all
          exact hpositions p1 hp1 (hsame ▸ hp2)
        have hother := own_mem_sectionsOf hn h2 hp2
        rw [← hi, ← hvl] at hother
        obtain ⟨hfirst, hsecond⟩ :=
          leftOutFirst_index?_ne (own_mem_sectionsOf hn h1 hp1) hother hne
        simpa [Spared, leftOut?, hp1, hp2, hi, hvl] using ⟨hi ▸ hvl ▸ hfirst, hi ▸ hvl ▸ hsecond⟩
      · simp [Spared, leftOut?, hp1, hp2, hi]

end Coupling

end Switchyard
