import Mathlib.Data.List.Nodup
import Switchyard.Grid

namespace Switchyard

open Std

instance instLawfulOrderMaxInt32 : LawfulOrderMax Int32 :=
  .of_max_le_iff
    (fun a b c => by
      change (if a ≤ b then b else a) ≤ c ↔ _
      grind)
    (fun a b => by
      change (if a ≤ b then b else a) = a ∨ (if a ≤ b then b else a) = b
      grind)

variable {i low high : Int32} {k : Nat}

theorem toInt_add_one (h : i ≠ .maxValue) : (i + 1).toInt = i.toInt + 1 := by
  have hlt := i.toInt_lt
  have hge := i.le_toInt
  have hne : i.toInt ≠ 2147483647 := fun he => h (Int32.toInt_inj.mp he)
  rw [Int32.toInt_add, show (1 : Int32).toInt = 1 from rfl, Int.bmod_eq_of_le] <;> omega

theorem toInt_sub_one (h : i ≠ .minValue) : (i - 1).toInt = i.toInt - 1 := by
  have hlt := i.toInt_lt
  have hge := i.le_toInt
  have hne : i.toInt ≠ -2147483648 := fun he => h (Int32.toInt_inj.mp he)
  rw [Int32.toInt_sub, show (1 : Int32).toInt = 1 from rfl, Int.bmod_eq_of_le] <;> omega

theorem ne_maxValue_of_lt (h : i < high) : i ≠ .maxValue := by
  rintro rfl
  exact absurd (Int32.lt_iff_toInt_lt.mp h) (Int.not_lt.mpr (Int.lt_add_one_iff.mp high.toInt_lt))

theorem ne_minValue_of_lt (h : low < i) : i ≠ .minValue := by
  rintro rfl
  exact absurd (Int32.lt_iff_toInt_lt.mp h) (Int.not_lt.mpr low.le_toInt)

theorem toInt_add_of_pos (h : 0 < i) (hle : low.toInt + i.toInt ≤ Int32.maxValue.toInt) :
    (low + i).toInt = low.toInt + i.toInt := by
  have hmax : Int32.maxValue.toInt = 2147483647 := rfl
  have hge := low.le_toInt
  have hpos := Int32.lt_iff_toInt_lt.mp h
  rw [Int32.toInt_add, Int.bmod_eq_of_le] <;> grind

theorem toInt_add_ofNat (h : low.toInt + k ≤ Int32.maxValue.toInt) :
    (low + .ofNat k).toInt = low.toInt + k := by
  have hmax : Int32.maxValue.toInt = 2147483647 := rfl
  have hge := low.le_toInt
  have hsize : Int32.size = 4294967296 := rfl
  rw [Int32.toInt_add, Int32.toInt_ofNat', Int.add_bmod_bmod, Int.bmod_eq_of_le] <;> omega

theorem mem_indicesBetween_iff : i ∈ indicesBetween low high ↔ low ≤ i ∧ i < high := by
  have hmax : Int32.maxValue.toInt = 2147483647 := rfl
  have hhigh := high.toInt_lt
  simp only [indicesBetween, List.mem_map, List.mem_range, Int32.le_iff_toInt_le,
    Int32.lt_iff_toInt_lt]
  constructor
  · rintro ⟨k, hk, rfl⟩
    rw [toInt_add_ofNat (by omega)]
    omega
  · rintro ⟨hle, hlt⟩
    refine ⟨(i.toInt - low.toInt).toNat, by omega, Int32.toInt_inj.mp ?_⟩
    rw [toInt_add_ofNat (by omega)]
    omega

theorem nodup_indicesBetween (low high : Int32) : (indicesBetween low high).Nodup := by
  refine List.Nodup.map_on (fun k hk l hl he => ?_) List.nodup_range
  have hmax : Int32.maxValue.toInt = 2147483647 := rfl
  have hhigh := high.toInt_lt
  rw [List.mem_range] at hk hl
  have hsame := congrArg Int32.toInt he
  rw [toInt_add_ofNat (by omega), toInt_add_ofNat (by omega)] at hsame
  omega

theorem length_indicesBetween (low high : Int32) :
    (indicesBetween low high).length = (high.toInt - low.toInt).toNat := by
  rw [indicesBetween, List.length_map, List.length_range]

end Switchyard
