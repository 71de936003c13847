import Std.Data.ExtTreeMap

namespace Switchyard

open Std

/-- How a graph numbers its parts, and in which order it lists them. Both may depend on the
numbers given and taken back so far. All that is relied on is that the next number is not in use,
and that no part is left out of a list. -/
class Numbering where
  State : Type
  start : State
  next : State → Nat
  give : State → State
  takeBack : State → Nat → State
  arrange : State → List Nat → List Nat
  /-- What the state says of the numbers in use. -/
  Tracks : State → (Nat → Prop) → Prop
  tracks_start : Tracks start fun _ => False
  tracks_give : ∀ {s InUse}, Tracks s InUse → Tracks (give s) fun k => k = next s ∨ InUse k
  tracks_takeBack : ∀ {s InUse number}, Tracks s InUse → InUse number →
    Tracks (takeBack s number) fun k => InUse k ∧ k ≠ number
  next_free : ∀ {s InUse}, Tracks s InUse → ¬InUse (next s)
  arrange_perm : ∀ s l, (arrange s l).Perm l

/-- The numbers taken back and not given again, last taken first, and the first number never
given. -/
structure Returned where
  released : List Nat := []
  fresh : Nat := 0

namespace Returned

def next (s : Returned) : Nat :=
  s.released.head?.getD s.fresh

def give (s : Returned) : Returned :=
  match s.released with
  | _ :: rest => { s with released := rest }
  | [] => { s with fresh := s.fresh + 1 }

def takeBack (s : Returned) (number : Nat) : Returned :=
  { s with released := number :: s.released }

structure Tracks (s : Returned) (InUse : Nat → Prop) : Prop where
  nodup : s.released.Nodup
  free : ∀ k ∈ s.released, ¬InUse k
  lt_fresh : ∀ k, k ∈ s.released ∨ InUse k → k < s.fresh

variable {s : Returned} {InUse : Nat → Prop}

theorem Tracks.give (h : s.Tracks InUse) : s.give.Tracks fun k => k = s.next ∨ InUse k := by
  obtain ⟨released, fresh⟩ := s
  cases released with
  | nil =>
    refine ⟨List.nodup_nil, fun k hk => absurd hk List.not_mem_nil, fun k hk => ?_⟩
    rcases hk with hk | rfl | hk
    · exact absurd hk List.not_mem_nil
    · exact Nat.lt_succ_self _
    · exact Nat.lt_succ_of_lt (h.lt_fresh k (Or.inr hk))
  | cons number rest =>
    obtain ⟨hnumber, hrest⟩ := List.nodup_cons.mp h.nodup
    refine ⟨hrest, fun k hk => ?_, fun k hk => h.lt_fresh k ?_⟩
    · rintro (rfl | hused)
      · exact hnumber hk
      · exact h.free k (List.mem_cons_of_mem _ hk) hused
    · rcases hk with hk | rfl | hk
      · exact Or.inl (List.mem_cons_of_mem _ hk)
      · exact Or.inl List.mem_cons_self
      · exact Or.inr hk

theorem Tracks.takeBack (h : s.Tracks InUse) {number : Nat} (hused : InUse number) :
    (s.takeBack number).Tracks fun k => InUse k ∧ k ≠ number where
  nodup := List.nodup_cons.mpr ⟨fun hin => h.free number hin hused, h.nodup⟩
  free := by
    rintro k hk ⟨hin, hne⟩
    rcases List.mem_cons.mp hk with rfl | hk
    · exact hne rfl
    · exact h.free k hk hin
  lt_fresh := by
    rintro k (hk | ⟨hk, -⟩)
    · rcases List.mem_cons.mp hk with rfl | hk
      · exact h.lt_fresh k (Or.inr hused)
      · exact h.lt_fresh k (Or.inl hk)
    · exact h.lt_fresh k (Or.inr hk)

theorem Tracks.next_free (h : s.Tracks InUse) : ¬InUse s.next := by
  obtain ⟨released, fresh⟩ := s
  cases released with
  | nil => exact fun hk => Nat.lt_irrefl _ (h.lt_fresh fresh (Or.inr hk))
  | cons number rest => exact h.free number List.mem_cons_self

end Returned

/-- The number taken back last is given first. -/
instance : Numbering where
  State := Returned
  start := {}
  next := Returned.next
  give := Returned.give
  takeBack := Returned.takeBack
  arrange _ l := l
  Tracks := Returned.Tracks
  tracks_start := ⟨List.nodup_nil, fun _ hk => absurd hk List.not_mem_nil,
    fun _ hk => hk.elim (fun hk => absurd hk List.not_mem_nil) False.elim⟩
  tracks_give := Returned.Tracks.give
  tracks_takeBack h hused := h.takeBack hused
  next_free := Returned.Tracks.next_free
  arrange_perm _ l := .refl l

/-- Values under numbers. -/
structure Slots [Numbering] (α : Type) where
  entries : ExtTreeMap Nat α
  numbers : Numbering.State
  tracks : Numbering.Tracks numbers (· ∈ entries)

namespace Slots

variable [Numbering] {α : Type}

def empty : Slots α where
  entries := ∅
  numbers := Numbering.start
  tracks := by
    have hnone : (fun _ : Nat => False) = (· ∈ (∅ : ExtTreeMap Nat α)) := by
      funext k
      simp
    exact hnone ▸ Numbering.tracks_start

@[simp] theorem entries_empty : (empty : Slots α).entries = ∅ :=
  rfl

/-- The number of the next value added. -/
def next (s : Slots α) : Nat :=
  Numbering.next s.numbers

theorem next_not_mem (s : Slots α) : s.next ∉ s.entries :=
  Numbering.next_free s.tracks

def add (s : Slots α) (a : α) : Slots α where
  entries := s.entries.insert s.next a
  numbers := Numbering.give s.numbers
  tracks := by
    have hin : (fun k => k = s.next ∨ k ∈ s.entries) = (· ∈ s.entries.insert s.next a) := by
      funext k
      rw [ExtTreeMap.mem_insert, Std.compare_eq_iff_eq, eq_comm (a := k)]
    exact hin ▸ Numbering.tracks_give s.tracks

/-- The numbers of some values, in the order in which the values are listed. -/
def arrange (s : Slots α) (l : List Nat) : List Nat :=
  Numbering.arrange s.numbers l

@[simp] theorem mem_arrange (s : Slots α) {l : List Nat} {number : Nat} :
    number ∈ s.arrange l ↔ number ∈ l :=
  (Numbering.arrange_perm s.numbers l).mem_iff

/-- Removes the value with a number, if there is one. -/
def drop (s : Slots α) (number : Nat) : Slots α :=
  if h : number ∈ s.entries then
    { entries := s.entries.erase number
      numbers := Numbering.takeBack s.numbers number
      tracks := by
        have hin : (fun k => k ∈ s.entries ∧ k ≠ number) = (· ∈ s.entries.erase number) := by
          funext k
          rw [ExtTreeMap.mem_erase, ne_eq, ne_eq, Std.compare_eq_iff_eq, and_comm, eq_comm (a := k)]
        exact hin ▸ Numbering.tracks_takeBack s.tracks h }
  else s

@[simp] theorem entries_add (s : Slots α) (a : α) :
    (s.add a).entries = s.entries.insert s.next a :=
  rfl

@[simp] theorem entries_drop (s : Slots α) (number : Nat) :
    (s.drop number).entries = s.entries.erase number := by
  unfold drop
  split
  next => rfl
  next h =>
    apply ExtTreeMap.ext_getElem?
    intro k
    by_cases e : number = k
    · subst e
      simp [ExtTreeMap.getElem?_eq_none h]
    · simp [ExtTreeMap.getElem?_erase, e]

end Slots

end Switchyard
