import Mathlib.Data.List.Forall2
import Mathlib.Data.List.Nodup
import Mathlib.Data.List.Perm.Subperm
import Std.Data.ExtTreeMap
import Std.Data.ExtTreeSet

namespace Switchyard

open Std

variable {α β γ : Type} {cmp : α → α → Ordering} [TransCmp cmp]

theorem values_eq_map_toList (m : ExtTreeMap α β cmp) : m.values = m.toList.map (·.2) := by
  obtain ⟨⟨q⟩⟩ := m
  induction q using Quotient.inductionOn with
  | h t =>
    change t.inner.values = (DTreeMap.Internal.Impl.Const.toList t.inner).map (·.2)
    rw [DTreeMap.Internal.Impl.values_eq_map_snd,
      DTreeMap.Internal.Impl.Const.toList_eq_toListModel_map]
    simp

theorem mem_iff_exists_getElem? {m : ExtTreeMap α β cmp} {k : α} :
    k ∈ m ↔ ∃ b, m[k]? = some b := by
  rw [ExtTreeMap.mem_iff_isSome_getElem?, Option.isSome_iff_exists]

variable [LawfulEqCmp cmp]

theorem nodup_toList (s : ExtTreeSet α cmp) : s.toList.Nodup :=
  ExtTreeSet.distinct_toList.imp fun hne he => hne (LawfulEqCmp.compare_eq_iff_eq.mpr he)

theorem mem_values_iff {m : ExtTreeMap α β cmp} {b : β} :
    b ∈ m.values ↔ ∃ k : α, m[k]? = some b := by
  rw [values_eq_map_toList, List.mem_map]
  constructor
  · intro hx
    obtain ⟨⟨k, b⟩, hm, rfl⟩ := hx
    exact ⟨k, ExtTreeMap.mem_toList_iff_getElem?_eq_some.mp hm⟩
  · intro hx
    obtain ⟨k, hk⟩ := hx
    exact ⟨(k, b), ExtTreeMap.mem_toList_iff_getElem?_eq_some.mpr hk, rfl⟩

theorem getElem?_erase_of_ne {m : ExtTreeMap α β cmp} {k a : α} (h : k ≠ a) :
    (m.erase k)[a]? = m[a]? := by
  simp [ExtTreeMap.getElem?_erase, h]

theorem erase_insert_of_not_mem {m : ExtTreeMap α β cmp} {k : α} {b : β} (h : k ∉ m) :
    (m.insert k b).erase k = m := by
  apply ExtTreeMap.ext_getElem?
  intro a
  rw [ExtTreeMap.getElem?_erase, ExtTreeMap.getElem?_insert]
  split
  next he =>
    have heq := LawfulEqCmp.eq_of_compare he
    subst heq
    exact (ExtTreeMap.getElem?_eq_none h).symm
  next => rfl

theorem insert_erase (m : ExtTreeMap α β cmp) (k : α) (b : β) :
    (m.erase k).insert k b = m.insert k b := by
  apply ExtTreeMap.ext_getElem?
  intro a
  rw [ExtTreeMap.getElem?_insert, ExtTreeMap.getElem?_insert, ExtTreeMap.getElem?_erase]
  split <;> rfl

theorem insert_of_getElem? {m : ExtTreeMap α β cmp} {k : α} {b : β} (h : m[k]? = some b) :
    m.insert k b = m := by
  apply ExtTreeMap.ext_getElem?
  intro a
  rw [ExtTreeMap.getElem?_insert]
  split
  next he =>
    obtain rfl := LawfulEqCmp.eq_of_compare he
    exact h.symm
  next => rfl

theorem modify_eq_insert {m : ExtTreeMap α β cmp} {k : α} {b : β} (h : m[k]? = some b) (f : β → β) :
    m.modify k f = m.insert k (f b) := by
  apply ExtTreeMap.ext_getElem?
  intro a
  rw [ExtTreeMap.getElem?_modify, ExtTreeMap.getElem?_insert]
  split
  next he =>
    have heq := LawfulEqCmp.eq_of_compare he
    subst heq
    rw [h, Option.map_some]
  next => rfl

omit [LawfulEqCmp cmp] in
theorem values_filter (m : ExtTreeMap α β cmp) (p : β → Bool) :
    (m.filter fun _ b => p b).values = m.values.filter p := by
  rw [values_eq_map_toList, values_eq_map_toList, ExtTreeMap.toList_filter, List.filter_map]
  rfl

theorem filter_values_congr {m m' : ExtTreeMap α β cmp} {p : β → Bool}
    (h : ∀ (k : α) b, p b = true → (m[k]? = some b ↔ m'[k]? = some b)) :
    m.values.filter p = m'.values.filter p := by
  rw [← values_filter, ← values_filter]
  congr 1
  apply ExtTreeMap.ext_getElem?
  intro k
  apply Option.ext
  intro b
  simp only [ExtTreeMap.getElem?_filter', Option.filter_eq_some_iff]
  constructor
  · intro hx
    exact ⟨(h k b hx.2).mp hx.1, hx.2⟩
  · intro hx
    exact ⟨(h k b hx.2).mpr hx.1, hx.2⟩

/-- A map that has all entries of another one has its values as often at least. -/
theorem values_subperm {m m' : ExtTreeMap α β cmp}
    (h : ∀ (k : α) b, m[k]? = some b → m'[k]? = some b) : m.values.Subperm m'.values := by
  have hkeys : (m.toList.map (·.1)).Nodup := by
    rw [ExtTreeMap.map_fst_toList_eq_keys]
    exact ExtTreeMap.nodup_keys
  obtain ⟨l, hperm, hsub⟩ := (hkeys.of_map _).subperm fun x hx =>
    ExtTreeMap.mem_toList_iff_getElem?_eq_some.mpr
      (h x.1 x.2 (ExtTreeMap.mem_toList_iff_getElem?_eq_some.mp hx))
  rw [values_eq_map_toList, values_eq_map_toList]
  exact ⟨l.map (·.2), hperm.map _, hsub.map _⟩

/-- Values kept under keys that they tell are kept once each. -/
theorem nodup_values {m : ExtTreeMap String α} (key : α → String)
    (h : ∀ (k : String) a, m[k]? = some a → key a = k) : m.values.Nodup := by
  have hk : m.values.map key = m.keys := by
    rw [values_eq_map_toList, List.map_map, ← ExtTreeMap.map_fst_toList_eq_keys]
    apply List.map_congr_left
    intro ⟨k, a⟩ hm
    exact h k a (ExtTreeMap.mem_toList_iff_getElem?_eq_some.mp hm)
  have hd : m.keys.Nodup := ExtTreeMap.nodup_keys
  rw [← hk] at hd
  exact hd.of_map key

omit [LawfulEqCmp cmp] in
theorem values_map (m : ExtTreeMap α β cmp) (f : β → γ) :
    (m.map fun _ b => f b).values = m.values.map f := by
  rw [values_eq_map_toList, values_eq_map_toList, ExtTreeMap.toList_map, List.map_map, List.map_map]
  rfl

/-- Maps with related values under the same keys have related values, in order. -/
theorem forall₂_values {R : β → γ → Prop} {m : ExtTreeMap α β cmp} {m' : ExtTreeMap α γ cmp}
    (h : ∀ k : α, Option.Rel R m[k]? m'[k]?) : List.Forall₂ R m.values m'.values := by
  let pairs : ExtTreeMap α (β × γ) cmp := m.filterMap fun k b => m'[k]?.map (b, ·)
  have hpairs : ∀ k : α, pairs[k]? = m[k]?.bind fun b => m'[k]?.map (b, ·) := fun k => by
    rw [ExtTreeMap.getElem?_filterMap']
  have hleft : pairs.map (fun _ x => x.1) = m := by
    apply ExtTreeMap.ext_getElem?
    intro k
    rw [ExtTreeMap.getElem?_map, hpairs]
    generalize m[k]? = a, m'[k]? = b, h k = hk
    cases hk <;> rfl
  have hright : pairs.map (fun _ x => x.2) = m' := by
    apply ExtTreeMap.ext_getElem?
    intro k
    rw [ExtTreeMap.getElem?_map, hpairs]
    generalize m[k]? = a, m'[k]? = b, h k = hk
    cases hk <;> rfl
  rw [← hleft, ← hright, values_map, values_map, List.forall₂_map_left_iff,
    List.forall₂_map_right_iff, List.forall₂_same]
  intro x hx
  obtain ⟨k, hk⟩ := mem_values_iff.mp hx
  rw [hpairs] at hk
  have hrel := h k
  generalize m[k]? = a, m'[k]? = b at hk hrel
  cases hrel with
  | none => cases hk
  | some hab =>
    cases hk
    exact hab

end Switchyard
