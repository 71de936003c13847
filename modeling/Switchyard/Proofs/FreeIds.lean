import Mathlib.Data.List.Nodup
import Mathlib.Data.Nat.Find
import Switchyard.Network

namespace Switchyard.Network

open Std

theorem numberedId_injective (base : String) {i j : Nat}
    (h : numberedId base i = numberedId base j) : i = j := by
  have hd : toString i = toString j := by
    simpa [numberedId, String.append_right_inj] using h
  have hdigits : Nat.toDigits 10 i = Nat.toDigits 10 j := by
    rw [← Nat.toList_repr, ← Nat.toList_repr]
    exact congrArg String.toList hd
  calc
    i = Nat.ofDigitChars 10 (Nat.toDigits 10 i) 0 := Nat.ofDigitChars_ten_toDigits.symm
    _ = Nat.ofDigitChars 10 (Nat.toDigits 10 j) 0 := by rw [hdigits]
    _ = j := Nat.ofDigitChars_ten_toDigits

theorem numberedId_ne (base : String) (number : Nat) : numberedId base number ≠ base := by
  intro h
  have hl := congrArg String.length h
  simp only [numberedId, String.length_append] at hl
  have hmark : (toString "#").length = 1 := rfl
  have hbase : (toString base).length = base.length := rfl
  omega

variable [Numbering] {n : Network} {base : String}

/-- One of as many numbers as there are ids is free. -/
theorem exists_free_number (h : base ∈ n.index) :
    ∃ number < n.index.size, numberedId base number ∉ n.index := by
  by_contra hnone
  -- The id and its numbered forms would all be in use, one more than there are ids.
  have hsub : base :: (List.range n.index.size).map (numberedId base) ⊆ n.index.keys := by
    intro id hid
    rw [ExtTreeMap.mem_keys]
    rcases List.mem_cons.mp hid with rfl | hid
    · exact h
    · obtain ⟨number, hnumber, rfl⟩ := List.mem_map.mp hid
      by_contra hfree
      exact hnone ⟨number, List.mem_range.mp hnumber, hfree⟩
  have hnodup : (base :: (List.range n.index.size).map (numberedId base)).Nodup := by
    refine List.nodup_cons.mpr ⟨fun hin => ?_, ?_⟩
    · obtain ⟨number, -, hsame⟩ := List.mem_map.mp hin
      exact numberedId_ne base number hsame
    · exact List.nodup_range.map fun i j hsame => numberedId_injective base hsame
  have hl := hnodup.length_le_of_subset hsub
  rw [List.length_cons, List.length_map, List.length_range, ExtTreeMap.length_keys] at hl
  omega

/-- The number is the first one whose id is free. -/
structure FirstFree (n : Network) (base : String) (number : Nat) : Prop where
  free : numberedId base number ∉ n.index
  taken : ∀ earlier < number, numberedId base earlier ∈ n.index

theorem exists_firstFree (h : base ∈ n.index) :
    ∃ number < n.index.size, n.FirstFree base number := by
  classical
  obtain ⟨bound, hbound, hfree⟩ := exists_free_number h
  have hex : ∃ number, numberedId base number ∉ n.index := ⟨bound, hfree⟩
  exact ⟨Nat.find hex, Nat.lt_of_le_of_lt (Nat.find_min' hex hfree) hbound, Nat.find_spec hex,
    fun earlier hlt => not_not.mp (Nat.find_min hex hlt)⟩

theorem uniqueId_of_free (h : base ∉ n.index) : n.uniqueId base = base := by
  unfold uniqueId contains
  rw [if_neg (by simpa using h)]

theorem uniqueId_of_taken {number : Nat} (h : base ∈ n.index) (hfirst : n.FirstFree base number)
    (hlt : number < n.index.size) : n.uniqueId base = numberedId base number := by
  have hfind : (List.range (n.index.size + 1)).find? ((!n.contains ·) ∘ numberedId base) =
      some number := by
    rw [List.find?_range_eq_some]
    simp only [Function.comp, contains]
    have hfree : n.index.contains (numberedId base number) = false :=
      Bool.eq_false_iff.mpr fun hin => hfirst.free (ExtTreeMap.contains_iff_mem.mp hin)
    refine ⟨by rw [hfree, Bool.not_false], List.mem_range.mpr (by omega), fun earlier hlt => ?_⟩
    simpa using hfirst.taken earlier hlt
  unfold uniqueId
  rw [if_pos (by simpa [contains] using h), List.find?_map, hfind]
  rfl

theorem uniqueId_not_mem (n : Network) (base : String) : n.uniqueId base ∉ n.index := by
  by_cases h : base ∈ n.index
  · obtain ⟨number, hlt, hfirst⟩ := exists_firstFree h
    rw [uniqueId_of_taken h hfirst hlt]
    exact hfirst.free
  · rwa [uniqueId_of_free h]

/-- Tries the numbered forms of an id from a number on, until one of them is free. The search
has no bound: it ends only if it comes upon a free id. -/
inductive Seeks (n : Network) (base : String) : Nat → Nat → String → Prop
  | found {number : Nat} (hfree : numberedId base number ∉ n.index) :
    Seeks n base number 1 (numberedId base number)
  | next {number tries : Nat} {id : String} (htaken : numberedId base number ∈ n.index)
    (hrest : Seeks n base (number + 1) tries id) : Seeks n base number (tries + 1) id

/-- Tries an id, and its numbered forms if it is taken. -/
inductive Searches (n : Network) (base : String) : Nat → String → Prop
  | own (hfree : base ∉ n.index) : Searches n base 1 base
  | numbered {tries : Nat} {id : String} (htaken : base ∈ n.index)
    (hrest : Seeks n base 0 tries id) : Searches n base (tries + 1) id

theorem FirstFree.seeks {number before next : Nat} (h : n.FirstFree base number)
    (hnext : next + before = number) :
    n.Seeks base next (before + 1) (numberedId base number) := by
  induction before generalizing next with
  | zero =>
    obtain rfl : next = number := hnext
    exact .found h.free
  | succ before ih => exact .next (h.taken next (by omega)) (ih (by omega))

theorem Seeks.unique {number tries tries' : Nat} {id id' : String}
    (h : n.Seeks base number tries id) (h' : n.Seeks base number tries' id') :
    tries' = tries ∧ id' = id := by
  induction h generalizing tries' id' with
  | found hfree =>
    cases h' with
    | found _ => exact ⟨rfl, rfl⟩
    | next htaken _ => exact absurd htaken hfree
  | next htaken _ ih =>
    cases h' with
    | found hfree => exact absurd htaken hfree
    | next _ hrest =>
      obtain ⟨rfl, rfl⟩ := ih hrest
      exact ⟨rfl, rfl⟩

theorem Searches.unique {tries tries' : Nat} {id id' : String} (h : n.Searches base tries id)
    (h' : n.Searches base tries' id') : tries' = tries ∧ id' = id := by
  cases h with
  | own hfree =>
    cases h' with
    | own _ => exact ⟨rfl, rfl⟩
    | numbered htaken _ => exact absurd htaken hfree
  | numbered htaken hseeks =>
    cases h' with
    | own hfree => exact absurd htaken hfree
    | numbered _ hseeks' =>
      obtain ⟨rfl, rfl⟩ := hseeks.unique hseeks'
      exact ⟨rfl, rfl⟩

/-- The search ends by itself, and needs one try more than there are ids at most. -/
theorem exists_searches (n : Network) (base : String) :
    ∃ tries ≤ n.index.size + 1,
      ∀ t id, n.Searches base t id ↔ t = tries ∧ id = n.uniqueId base := by
  obtain ⟨tries, hle, hsearches⟩ :
      ∃ tries ≤ n.index.size + 1, n.Searches base tries (n.uniqueId base) := by
    by_cases h : base ∈ n.index
    · obtain ⟨number, hlt, hfirst⟩ := exists_firstFree h
      rw [uniqueId_of_taken h hfirst hlt]
      exact ⟨number + 2, by omega, .numbered h (hfirst.seeks (Nat.zero_add number))⟩
    · rw [uniqueId_of_free h]
      exact ⟨1, by omega, .own h⟩
  refine ⟨tries, hle, fun t id => ⟨hsearches.unique, ?_⟩⟩
  rintro ⟨rfl, rfl⟩
  exact hsearches

end Switchyard.Network
