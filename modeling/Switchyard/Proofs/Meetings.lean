import Mathlib.Data.List.Perm.Subperm
import Switchyard.Tee

namespace Switchyard

theorem nodup_eraseDups (xs : List String) : xs.eraseDups.Nodup := by
  induction hl : xs.length using Nat.strongRecOn generalizing xs with
  | ind count ih =>
    cases xs with
    | nil => simp
    | cons x rest =>
      have hlt : (rest.filter (!· == x)).length < count := by
        have hle := List.length_filter_le (!· == x) rest
        rw [List.length_cons] at hl
        omega
      rw [List.eraseDups_cons, List.nodup_cons]
      exact ⟨by simp, ih _ hlt _ rfl⟩

theorem length_eraseDups_le {xs ys : List String} (h : xs ⊆ ys) :
    xs.eraseDups.length ≤ ys.length := by
  have hsub : xs.eraseDups ⊆ ys := fun x hx => h (List.mem_eraseDups.mp hx)
  exact ((nodup_eraseDups xs).subperm hsub).length_le

variable {a b c : Branch} {vl : String} {side : Side}

namespace Branch

/-- The voltage level of a line at a side. -/
def endOf (b : Branch) (side : Side) : String :=
  (b.terminal side).voltageLevel

theorem endOf_of_sideIn (h : b.sideIn vl = some side) : b.endOf side = vl := by
  unfold sideIn at h
  split at h <;> cases h
  next h1 h2 => simpa [endOf, terminal] using h1
  next h1 h2 => simpa [endOf, terminal] using h2

theorem isIn_iff : (Connectable.branch b).isIn vl = true ↔ vl ∈ b.ends := by
  simp only [Connectable.isIn, Connectable.terminals, ends, List.any_cons, List.any_nil,
    Bool.or_false, Bool.or_eq_true, beq_iff_eq, List.mem_cons, List.not_mem_nil, or_false]
  exact or_congr eq_comm eq_comm

theorem isIn_eq_false (h1 : b.terminal1.voltageLevel ≠ vl) (h2 : b.terminal2.voltageLevel ≠ vl) :
    (Connectable.branch b).isIn vl = false := by
  simp [Connectable.isIn, Connectable.terminals, h1, h2]

theorem ends_subset (h : b.sideIn vl = some side) : b.ends ⊆ [vl, b.endOf side.opposite] := by
  have hnear := endOf_of_sideIn h
  unfold sideIn at h
  split at h <;> cases h <;> simp_all [ends, endOf, terminal, Side.opposite]

theorem endOf_opposite_ne (h : b.sideIn vl = some side) : b.endOf side.opposite ≠ vl := by
  unfold sideIn at h
  split at h <;> cases h <;> simp_all [endOf, terminal, Side.opposite]

theorem mem_ends_of_sideIn (h : b.sideIn vl = some side) : vl ∈ b.ends := by
  have hnear := endOf_of_sideIn h
  cases side <;> simp_all [ends, endOf, terminal]

/-- A line that ends in a voltage level at its second side is there at that side. -/
theorem side_eq_two (h : b.sideIn vl = some side) (h2 : b.terminal2.voltageLevel = vl) :
    side = .two := by
  unfold sideIn at h
  split at h <;> simp_all

theorem side_eq_one (h : b.sideIn vl = some side) (h1 : b.terminal1.voltageLevel = vl) :
    side = .one := by
  unfold sideIn at h
  split at h <;> simp_all

end Branch

/-- Each of the lines of a tee point has one end there, and the other ones lie
in three different voltage levels. -/
theorem teePoint_spec {tee : TeePoint} (h : teePoint? a b c = some tee) :
    a.sideIn tee.voltageLevel = some tee.side1 ∧ b.sideIn tee.voltageLevel = some tee.side2 ∧
      c.sideIn tee.voltageLevel = some tee.side3 ∧
      [a.endOf tee.side1.opposite, b.endOf tee.side2.opposite,
        c.endOf tee.side3.opposite].Nodup := by
  unfold teePoint? at h
  dsimp only at h
  split at h
  · cases h
  next hlength =>
    obtain ⟨vl, -, h⟩ := Option.bind_eq_some_iff.mp h
    obtain ⟨side1, h1, h⟩ := Option.bind_eq_some_iff.mp h
    obtain ⟨side2, h2, h⟩ := Option.bind_eq_some_iff.mp h
    obtain ⟨side3, h3, h⟩ := Option.bind_eq_some_iff.mp h
    cases h
    refine ⟨h1, h2, h3, ?_⟩
    have hends : a.ends ++ b.ends ++ c.ends ⊆
        [vl, a.endOf side1.opposite, b.endOf side2.opposite, c.endOf side3.opposite] := by
      have hsubs := And.intro (a.ends_subset h1) (And.intro (b.ends_subset h2) (c.ends_subset h3))
      simp only [List.subset_def, List.mem_append, List.mem_cons] at hsubs ⊢
      grind
    have hroom : ∀ ys : List String, a.ends ++ b.ends ++ c.ends ⊆ ys → 4 ≤ ys.length := by
      intro ys hys
      have hle := length_eraseDups_le hys
      omega
    by_contra hdup
    -- Two of the far ends in one voltage level leave three at most.
    have hthree : ∃ x y, a.ends ++ b.ends ++ c.ends ⊆ [vl, x, y] := by
      by_cases hab : a.endOf side1.opposite = b.endOf side2.opposite
      · refine ⟨b.endOf side2.opposite, c.endOf side3.opposite, List.Subset.trans hends ?_⟩
        rw [hab]
        simp
      by_cases hac : a.endOf side1.opposite = c.endOf side3.opposite
      · refine ⟨b.endOf side2.opposite, c.endOf side3.opposite, List.Subset.trans hends ?_⟩
        rw [hac]
        simp
      · have hbc : b.endOf side2.opposite = c.endOf side3.opposite := by simp_all
        refine ⟨a.endOf side1.opposite, c.endOf side3.opposite, List.Subset.trans hends ?_⟩
        rw [hbc]
        simp
    obtain ⟨x, y, hsub⟩ := hthree
    have hle := hroom _ hsub
    simp at hle

theorem Branch.ne_of_endOf {x y : Branch} {side' : Side} (hx : x.sideIn vl = some side)
    (hy : y.sideIn vl = some side') (hends : x.endOf side.opposite ≠ y.endOf side'.opposite) :
    x ≠ y := by
  rintro rfl
  rw [hx] at hy
  cases hy
  exact hends rfl

theorem ne_of_teePoint {tee : TeePoint} (h : teePoint? a b c = some tee) :
    a ≠ b ∧ a ≠ c ∧ b ≠ c := by
  obtain ⟨h1, h2, h3, hends⟩ := teePoint_spec h
  simp only [List.nodup_cons, List.mem_cons, List.not_mem_nil, or_false, not_or] at hends
  obtain ⟨⟨hab, hac⟩, hbc, -⟩ := hends
  exact ⟨Branch.ne_of_endOf h1 h2 hab, Branch.ne_of_endOf h1 h3 hac, Branch.ne_of_endOf h2 h3 hbc⟩

theorem teePoint_of_halves {tee : TeePoint} (h : teePoint? a b c = some tee)
    (hab : b.terminal1.voltageLevel = a.terminal2.voltageLevel) :
    ∃ side, tee = ⟨a.terminal2.voltageLevel, .two, .one, side⟩ := by
  obtain ⟨h1, h2, -, hends⟩ := teePoint_spec h
  have hvl : a.terminal2.voltageLevel = tee.voltageLevel := by
    by_contra hne
    have ha : a.terminal1.voltageLevel = tee.voltageLevel := by
      have hm := Branch.mem_ends_of_sideIn h1
      simp only [Branch.ends, List.mem_cons, List.not_mem_nil, or_false] at hm
      grind
    have hb : b.terminal2.voltageLevel = tee.voltageLevel := by
      have hm := Branch.mem_ends_of_sideIn h2
      simp only [Branch.ends, List.mem_cons, List.not_mem_nil, or_false] at hm
      grind
    -- Then both far ends are where the lines meet.
    rw [Branch.side_eq_one h1 ha, Branch.side_eq_two h2 hb] at hends
    have hfar : a.endOf Side.one.opposite = b.endOf Side.two.opposite := hab.symm
    simp [hfar] at hends
  have hside1 := Branch.side_eq_two h1 hvl
  have hside2 := Branch.side_eq_one h2 (hab.trans hvl)
  cases tee
  simp_all

/-- Where two lines meet, each has one end. They have no other voltage level in
common. -/
theorem meetingPoint_spec {p : MeetingPoint} (h : meetingPoint? a b = some p) :
    a.sideIn p.voltageLevel = some p.side1 ∧ b.sideIn p.voltageLevel = some p.side2 ∧
      ∀ vl ∈ a.ends, vl ∈ b.ends → vl = p.voltageLevel := by
  unfold meetingPoint? at h
  split at h
  next vl hcommon =>
    obtain ⟨side1, h1, h⟩ := Option.bind_eq_some_iff.mp h
    obtain ⟨side2, h2, h⟩ := Option.bind_eq_some_iff.mp h
    cases h
    refine ⟨h1, h2, fun x hx hy => ?_⟩
    have hm : x ∈ a.ends.eraseDups.filter (· ∈ b.ends) := by
      simp [List.mem_filter, hx, hy]
    rw [hcommon] at hm
    exact List.mem_singleton.mp hm
  next => cases h

theorem ends_of_meetingPoint {p : MeetingPoint} (h : meetingPoint? a b = some p) :
    a.endOf p.side1.opposite ≠ b.endOf p.side2.opposite := by
  obtain ⟨h1, -, hcommon⟩ := meetingPoint_spec h
  intro he
  have hfar : ∀ (x : Branch) side, x.endOf side ∈ x.ends := fun x side => by
    cases side <;> simp [Branch.endOf, Branch.terminal, Branch.ends]
  exact Branch.endOf_opposite_ne h1 (hcommon _ (hfar a _) (he ▸ hfar b _))

theorem meetingPoint_of_halves {p : MeetingPoint} (h : meetingPoint? a b = some p)
    (hab : b.terminal1.voltageLevel = a.terminal2.voltageLevel) :
    p = ⟨a.terminal2.voltageLevel, .two, .one⟩ := by
  obtain ⟨h1, h2, hcommon⟩ := meetingPoint_spec h
  have hvl : a.terminal2.voltageLevel = p.voltageLevel :=
    hcommon _ (by simp [Branch.ends]) (by simp [Branch.ends, hab])
  have hside1 := Branch.side_eq_two h1 hvl
  have hside2 := Branch.side_eq_one h2 (hab.trans hvl)
  cases p
  simp_all

end Switchyard
