import Mathlib.Data.Fin.VecNotation
import Mathlib.Data.List.FinRange
import Mathlib.Logic.Equiv.Defs
import Switchyard.Proofs.Meetings

namespace Switchyard

/-- The side of each of the lines at their tee point. -/
def TeePoint.side (tee : TeePoint) : Fin 3 → Side :=
  ![tee.side1, tee.side2, tee.side3]

variable {a b : Branch} {vl x : String} {side side1 side2 : Side} {lines : Fin 3 → Branch}
  {sides : Fin 3 → Side} {tee : TeePoint}

namespace Branch

/-- The side is the one terminal of the line in the voltage level. -/
def EndsAt (b : Branch) (side : Side) (vl : String) : Prop :=
  ∀ other, (∃ t, b.terminal? other = some t ∧ t.voltageLevel = vl) ↔ other = side

theorem endsAt_iff : b.EndsAt side vl ↔
    (b.terminal1.voltageLevel = vl ↔ side = .one) ∧ (b.terminal2.voltageLevel = vl ↔ side = .two) ∧
      side ≠ .three := by
  constructor
  · intro h
    have h1 := h .one
    have h2 := h .two
    have h3 := h .three
    simp only [terminal?, Option.some.injEq, exists_eq_left', reduceCtorEq, false_and,
      exists_false, false_iff] at h1 h2 h3
    exact ⟨h1.trans eq_comm, h2.trans eq_comm, Ne.symm h3⟩
  · rintro ⟨h1, h2, h3⟩ other
    cases other with
    | one => simpa [terminal?] using h1.trans eq_comm
    | two => simpa [terminal?] using h2.trans eq_comm
    | three => simpa [terminal?] using h3.symm

theorem sideIn_eq_some_iff : b.sideIn vl = some side ↔ b.EndsAt side vl := by
  rw [endsAt_iff]
  unfold sideIn
  by_cases h1 : b.terminal1.voltageLevel = vl <;> by_cases h2 : b.terminal2.voltageLevel = vl <;>
    simp only [h1, h2, beq_self_eq_true, beq_eq_false_iff_ne.mpr, ne_eq, not_false_eq_true] <;>
    cases side <;> simp

/-- A line that ends in a voltage level ends there and at its other end. -/
theorem EndsAt.ends_perm (h : b.EndsAt side vl) : b.ends.Perm [vl, b.endOf side.opposite] := by
  obtain ⟨h1, h2, h3⟩ := endsAt_iff.mp h
  cases side with
  | one => simp [ends, endOf, terminal, Side.opposite, h1.mpr rfl]
  | two => simpa [ends, endOf, terminal, Side.opposite, h2.mpr rfl] using List.Perm.swap _ _ []
  | three => exact absurd rfl h3

end Branch

/-- The three lines meet in the voltage level, each with one terminal. Their other ends lie in
three other voltage levels. -/
structure MeetAt (lines : Fin 3 → Branch) (vl : String) (sides : Fin 3 → Side) : Prop where
  ends : ∀ i, (lines i).EndsAt (sides i) vl
  apart : Function.Injective fun i => (lines i).endOf (sides i).opposite
  away : ∀ i, (lines i).endOf (sides i).opposite ≠ vl

theorem meetAt_of_teePoint (h : teePoint? (lines 0) (lines 1) (lines 2) = some tee) :
    MeetAt lines tee.voltageLevel tee.side := by
  obtain ⟨h0, h1, h2, hfar⟩ := teePoint_spec h
  have hside : ∀ i, (lines i).sideIn tee.voltageLevel = some (tee.side i) := by
    intro i
    match i with
    | 0 => exact h0
    | 1 => exact h1
    | 2 => exact h2
  refine ⟨fun i => Branch.sideIn_eq_some_iff.mp (hside i), ?_,
    fun i => Branch.endOf_opposite_ne (hside i)⟩
  rw [← List.nodup_ofFn]
  simpa [List.ofFn_succ, TeePoint.side] using hfar

theorem find?_eq_some_of_unique {α : Type} {p : α → Bool} {l : List α} {y : α} (hin : y ∈ l)
    (hy : p y = true) (hunique : ∀ z ∈ l, p z = true → z = y) : l.find? p = some y := by
  cases h : l.find? p with
  | none => exact absurd hy (List.find?_eq_none.mp h y hin)
  | some z => rw [hunique z (List.mem_of_find?_eq_some h) (List.find?_some h)]

namespace MeetAt

/-- The ends of lines that meet: three where they meet, and the three other ones. -/
theorem ends_perm (h : MeetAt lines vl sides) :
    ((lines 0).ends ++ (lines 1).ends ++ (lines 2).ends).Perm
      ([vl, vl] ++ vl :: List.ofFn fun i => (lines i).endOf (sides i).opposite) := by
  have hfar : (List.ofFn fun i => (lines i).endOf (sides i).opposite) =
      [(lines 0).endOf (sides 0).opposite, (lines 1).endOf (sides 1).opposite,
        (lines 2).endOf (sides 2).opposite] := rfl
  have hperm := ((h.ends 0).ends_perm.append (h.ends 1).ends_perm).append (h.ends 2).ends_perm
  refine hperm.trans (List.perm_iff_count.mpr fun y => ?_)
  simp only [hfar, List.count_append, List.count_cons, List.count_nil]
  omega

theorem nodup_levels (h : MeetAt lines vl sides) :
    (vl :: List.ofFn fun i => (lines i).endOf (sides i).opposite).Nodup := by
  refine List.nodup_cons.mpr ⟨fun hin => ?_, List.nodup_ofFn.mpr h.apart⟩
  obtain ⟨i, hi⟩ := List.mem_ofFn.mp hin
  exact h.away i hi

theorem length_eraseDups (h : MeetAt lines vl sides) :
    ((lines 0).ends ++ (lines 1).ends ++ (lines 2).ends).eraseDups.length = 4 := by
  have hperm := (List.perm_ext_iff_of_nodup (nodup_eraseDups _) h.nodup_levels).mpr fun y => by
    rw [List.mem_eraseDups, h.ends_perm.mem_iff]
    simp
  simpa using hperm.length_eq

/-- Three ends lie in the voltage level where the lines meet, and in no other one. -/
theorem count_ends_iff (h : MeetAt lines vl sides) :
    ((lines 0).ends ++ (lines 1).ends ++ (lines 2).ends).count x = 3 ↔ x = vl := by
  have hle := List.nodup_iff_count_le_one.mp h.nodup_levels x
  rw [h.ends_perm.count_eq, List.count_append]
  by_cases hx : x = vl
  · subst hx
    rw [List.count_eq_one_of_mem h.nodup_levels List.mem_cons_self]
    simp
  · have hzero : List.count x [vl, vl] = 0 := by simp [Ne.symm hx]
    simp only [hzero, hx, iff_false]
    omega

theorem teePoint (h : MeetAt lines vl sides) :
    teePoint? (lines 0) (lines 1) (lines 2) = some ⟨vl, sides 0, sides 1, sides 2⟩ := by
  have hfind : ((lines 0).ends ++ (lines 1).ends ++ (lines 2).ends).find?
      (fun vl => ((lines 0).ends ++ (lines 1).ends ++ (lines 2).ends).count vl = 3) = some vl := by
    refine find?_eq_some_of_unique ?_ (by simpa using h.count_ends_iff.mpr rfl)
      fun y _ hy => h.count_ends_iff.mp (by simpa using hy)
    exact h.ends_perm.mem_iff.mpr List.mem_cons_self
  have hside := fun i => Branch.sideIn_eq_some_iff.mpr (h.ends i)
  unfold teePoint?
  dsimp only
  rw [if_neg (by simpa using h.length_eraseDups), hfind]
  simp only [Option.bind_eq_bind, Option.bind_some, hside]
  rfl

/-- Lines that meet in another order meet in the same voltage level. -/
theorem comp (h : MeetAt lines vl sides) (σ : Equiv.Perm (Fin 3)) :
    MeetAt (lines ∘ σ) vl (sides ∘ σ) where
  ends := fun i => h.ends (σ i)
  apart := h.apart.comp σ.injective
  away := fun i => h.away (σ i)

end MeetAt

theorem teePoint_eq_some_iff :
    teePoint? (lines 0) (lines 1) (lines 2) = some ⟨vl, sides 0, sides 1, sides 2⟩ ↔
      MeetAt lines vl sides := by
  refine ⟨fun h => ?_, MeetAt.teePoint⟩
  have hsides : TeePoint.side ⟨vl, sides 0, sides 1, sides 2⟩ = sides := by
    funext i
    match i with
    | 0 => rfl
    | 1 => rfl
    | 2 => rfl
  exact hsides ▸ meetAt_of_teePoint h

/-- The lines in another order have their sides in that order. -/
theorem teePoint_comp (lines : Fin 3 → Branch) (σ : Equiv.Perm (Fin 3)) :
    teePoint? (lines (σ 0)) (lines (σ 1)) (lines (σ 2)) =
      (teePoint? (lines 0) (lines 1) (lines 2)).map fun tee =>
        ⟨tee.voltageLevel, tee.side (σ 0), tee.side (σ 1), tee.side (σ 2)⟩ := by
  cases h : teePoint? (lines 0) (lines 1) (lines 2) with
  | some tee => exact ((meetAt_of_teePoint h).comp σ).teePoint
  | none =>
    rw [Option.map_none, Option.eq_none_iff_forall_ne_some]
    intro tee htee
    have hback := ((show MeetAt (lines ∘ σ) _ _ from meetAt_of_teePoint htee).comp σ.symm).teePoint
    simp only [Function.comp_apply, Equiv.apply_symm_apply, h, reduceCtorEq] at hback

theorem meetingPoint_eq_some_iff : meetingPoint? a b = some ⟨vl, side1, side2⟩ ↔
    (∀ y, y ∈ a.ends ∧ y ∈ b.ends ↔ y = vl) ∧ a.EndsAt side1 vl ∧ b.EndsAt side2 vl := by
  simp only [← Branch.sideIn_eq_some_iff]
  constructor
  · intro h
    obtain ⟨h1, h2, hcommon⟩ := meetingPoint_spec h
    refine ⟨fun y => ⟨fun hy => hcommon y hy.1 hy.2, ?_⟩, h1, h2⟩
    rintro rfl
    exact ⟨Branch.mem_ends_of_sideIn h1, Branch.mem_ends_of_sideIn h2⟩
  · rintro ⟨hcommon, h1, h2⟩
    have hperm : (a.ends.eraseDups.filter (· ∈ b.ends)).Perm [vl] := by
      refine (List.perm_ext_iff_of_nodup ((nodup_eraseDups _).filter _)
        (List.nodup_singleton vl)).mpr fun y => ?_
      simpa using hcommon y
    unfold meetingPoint?
    rw [List.perm_singleton.mp hperm]
    simp [h1, h2]

/-- Three lines have a tee point exactly where they meet, each with one terminal, and go on to
three other voltage levels. There is one such voltage level at most, and the order of the lines
does not matter to it. Two lines have a meeting point exactly if they have one voltage level in
common, where each has one terminal. -/
theorem lines_meet_iff (lines : Fin 3 → Branch) (a b : Branch) :
    (∀ vl sides, teePoint? (lines 0) (lines 1) (lines 2) =
        some ⟨vl, sides 0, sides 1, sides 2⟩ ↔ MeetAt lines vl sides) ∧
      (∀ vl vl' sides sides', MeetAt lines vl sides ∧ MeetAt lines vl' sides' →
        vl = vl' ∧ sides = sides') ∧
      (∀ σ : Equiv.Perm (Fin 3), teePoint? (lines (σ 0)) (lines (σ 1)) (lines (σ 2)) =
        (teePoint? (lines 0) (lines 1) (lines 2)).map fun tee =>
          ⟨tee.voltageLevel, tee.side (σ 0), tee.side (σ 1), tee.side (σ 2)⟩) ∧
      ∀ vl side1 side2, meetingPoint? a b = some ⟨vl, side1, side2⟩ ↔
        (∀ x, x ∈ a.ends ∧ x ∈ b.ends ↔ x = vl) ∧ a.EndsAt side1 vl ∧ b.EndsAt side2 vl := by
  refine ⟨fun _ _ => teePoint_eq_some_iff, ?_, teePoint_comp lines, fun _ _ _ =>
    meetingPoint_eq_some_iff⟩
  rintro vl vl' sides sides' ⟨h, h'⟩
  have he := h.teePoint.symm.trans h'.teePoint
  simp only [Option.some.injEq, TeePoint.mk.injEq] at he
  obtain ⟨hvl, h0, h1, h2⟩ := he
  refine ⟨hvl, funext fun i => ?_⟩
  match i with
  | 0 => exact h0
  | 1 => exact h1
  | 2 => exact h2

def lineBetween (id vl1 vl2 : String) : Branch where
  id := id
  name := none
  kind := .line
  terminal1 := .atBus vl1 "B"
  terminal2 := .atBus vl2 "B"
  parameters := {}
  limits1 := {}
  limits2 := {}
  position := none

theorem lines_meet_iff_lineBetween :
    MeetAt ![lineBetween "L1" "V1" "T", lineBetween "L2" "T" "V2", lineBetween "L3" "V3" "T"] "T"
        ![.two, .one, .two] ∧
      (lineBetween "L1" "V1" "T").EndsAt .two "T" ∧
        (lineBetween "L2" "T" "V2").EndsAt .one "T" := by
  obtain ⟨htee, -, -, hmeet⟩ := lines_meet_iff
    ![lineBetween "L1" "V1" "T", lineBetween "L2" "T" "V2", lineBetween "L3" "V3" "T"]
    (lineBetween "L1" "V1" "T") (lineBetween "L2" "T" "V2")
  exact ⟨(htee "T" ![.two, .one, .two]).mp (by decide +kernel),
    ((hmeet "T" .two .one).mp (by decide +kernel)).2⟩

end Switchyard
