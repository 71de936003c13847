import Switchyard.Proofs.GridSteps

namespace Switchyard

/-- Points outside the field of a relation are related to themselves only. -/
theorem eq_or_of_eqvGen {α : Type} {r : α → α → Prop} {p : α → Prop}
    (hends : ∀ a b, r a b → p a ∧ p b) {a b : α} (h : Relation.EqvGen r a b) :
    a = b ∨ p a ∧ p b := by
  induction h with
  | rel x y hxy => exact Or.inr (hends x y hxy)
  | refl x => exact Or.inl rfl
  | symm x y _ ih => exact ih.imp Eq.symm And.symm
  | trans x y z _ _ hxy hyz => grind

namespace Grid

/-- The points of a grid are joined along its busbars, and to none of the points that
there were before. -/
structure Rows {α : Type} (g : Grid) (point : BusbarPosition → α) (old : α → Prop)
    (joined : α → α → Prop) : Prop where
  joined_iff : ∀ p q, g.covers p = true → g.covers q = true →
    (joined (point p) (point q) ↔ p.busbarIndex = q.busbarIndex)
  aside : ∀ p x, g.covers p = true → old x → ¬joined (point p) x

variable {α : Type} {g : Grid} {point : BusbarPosition → α} {old : α → Prop}
  {r r' joined : α → α → Prop} {fold : α → α} {p q : BusbarPosition} {a : α}

/-- Points of a busbar fold back to its first section. -/
def rowStart [DecidableEq α] (g : Grid) (point : BusbarPosition → α) (a : α) : α :=
  match g.positions.find? (point · = a) with
  | some p => point { p with sectionIndex := g.lowSection }
  | none => a

theorem rowStart_point [DecidableEq α] (hinj : ∀ p q, g.covers p = true → g.covers q = true →
    point p = point q → p = q) (hp : g.covers p = true) :
    g.rowStart point (point p) = point { p with sectionIndex := g.lowSection } := by
  unfold rowStart
  split
  next q hq =>
    have hcovers := mem_positions_iff.mp (List.mem_of_find?_eq_some hq)
    have hsame : point q = point p := by simpa using List.find?_some hq
    rw [hinj q p hcovers hp hsame]
  next hnone =>
    exact absurd (List.find?_eq_none.mp hnone p (mem_positions_iff.mpr hp)) (by simp)

theorem rowStart_of_old [DecidableEq α] (h : ∀ p, g.covers p = true → point p ≠ a) :
    g.rowStart point a = a := by
  unfold rowStart
  split
  next q hq =>
    have hsame : point q = a := by simpa using List.find?_some hq
    exact absurd hsame (h q (mem_positions_iff.mp (List.mem_of_find?_eq_some hq)))
  next => rfl

/-- What is closed between points of a grid and those that there were before. -/
structure RowFold (g : Grid) (point : BusbarPosition → α) (old : α → Prop) (r r' : α → α → Prop)
    (fold : α → α) : Prop where
  ends : ∀ a b, r a b → old a ∧ old b
  injective : ∀ p q, g.covers p = true → g.covers q = true → point p = point q → p = q
  new : ∀ p, g.covers p = true → ¬old (point p)
  closes : ∀ a b, r' a b → r a b ∨ fold a = fold b
  fold_old : ∀ a, old a → fold a = a
  fold_point : ∀ p, g.covers p = true →
    fold (point p) = point { p with sectionIndex := g.lowSection }

theorem covers_start (hp : g.covers p = true) :
    g.covers { p with sectionIndex := g.lowSection } = true := by
  obtain ⟨hbusbar, hlow, hhigh⟩ := covers_iff.mp hp
  exact covers_iff.mpr ⟨hbusbar, Int32.le_refl _, Int32.lt_of_le_of_lt hlow hhigh⟩

/-- What is related to a point of the grid folds back to the start of its row. -/
theorem RowFold.eq_start (h : g.RowFold point old r r' fold) 
    (hp : g.covers p = true) (hj : Relation.EqvGen r' (point p) a) :
    point { p with sectionIndex := g.lowSection } = fold a := by
  have hfold := eqvGen_map (fun a b hab => eqvGen_fold h.ends h.fold_old (h.closes a b hab)) hj
  rw [h.fold_point p hp] at hfold
  exact (eq_or_of_eqvGen h.ends hfold).resolve_right fun hold =>
    h.new _ (covers_start hp) hold.1

/-- Where consecutive sections are joined, a row is joined to its start. -/
theorem joined_start (hequiv : Equivalence joined)
    (hlinks : ∀ p, g.covers p = true →
      g.covers { p with sectionIndex := p.sectionIndex + 1 } = true →
      joined (point p) (point { p with sectionIndex := p.sectionIndex + 1 }))
    (hp : g.covers p = true) :
    joined (point { p with sectionIndex := g.lowSection }) (point p) := by
  -- By induction on how far the section is from the first one.
  obtain ⟨i, hi⟩ := Int.eq_ofNat_of_zero_le (Int.sub_nonneg.mpr (Int32.le_iff_toInt_le.mp
    (covers_iff.mp hp).2.1))
  induction i generalizing p with
  | zero =>
    have hstart : { p with sectionIndex := g.lowSection } = p := by
      have hfirst : g.lowSection = p.sectionIndex :=
        Int32.toInt_inj.mp (Int.sub_eq_zero.mp hi).symm
      rw [hfirst]
    rw [hstart]
    exact hequiv.refl _
  | succ i ih =>
    obtain ⟨b, j⟩ := p
    obtain ⟨hbusbar, hlow, hhigh⟩ := covers_iff.mp hp
    dsimp only at hi hbusbar hlow hhigh ⊢
    have hafter : g.lowSection < j := Int32.lt_iff_toInt_lt.mpr (by omega)
    have hone := toInt_sub_one (ne_minValue_of_lt hafter)
    have hge : g.lowSection ≤ j - 1 := Int32.le_iff_toInt_le.mpr (by omega)
    have hlt : j - 1 < j := Int32.lt_iff_toInt_lt.mpr (by omega)
    have hbefore : g.covers ⟨b, j - 1⟩ = true :=
      covers_iff.mpr ⟨hbusbar, hge, Int32.lt_trans hlt hhigh⟩
    have hstep := hlinks ⟨b, j - 1⟩ hbefore (by simpa using hp)
    simp only [Int32.sub_add_cancel] at hstep
    have hdistance : (j - 1).toInt - g.lowSection.toInt = i := by omega
    exact hequiv.trans (ih hbefore hdistance) hstep

theorem RowFold.rows (h : g.RowFold point old r r' fold) 
    (hequiv : Equivalence joined) (hsub : ∀ a b, joined a b → Relation.EqvGen r' a b)
    (hlinks : ∀ p, g.covers p = true →
      g.covers { p with sectionIndex := p.sectionIndex + 1 } = true →
      joined (point p) (point { p with sectionIndex := p.sectionIndex + 1 })) :
    g.Rows point old joined where
  joined_iff := by
    intro p q hp hq
    constructor
    · intro hj
      have hsame := h.eq_start hp (hsub _ _ hj)
      rw [h.fold_point q hq] at hsame
      have hstart := h.injective _ _ (covers_start hp) (covers_start hq) hsame
      exact (BusbarPosition.mk.inj hstart).1
    · intro hrow
      have hstart := joined_start hequiv hlinks hq
      rw [← hrow] at hstart
      exact hequiv.trans (hequiv.symm (joined_start hequiv hlinks hp)) hstart
  aside := by
    intro p x hp hx hj
    have hsame := h.eq_start hp (hsub _ _ hj)
    rw [h.fold_old x hx] at hsame
    exact h.new _ (covers_start hp) (hsame ▸ hx)

end Grid

end Switchyard
