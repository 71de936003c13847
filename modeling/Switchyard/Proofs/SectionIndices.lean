import Switchyard.Proofs.FailedInsertions
import Switchyard.Proofs.Indices

namespace Switchyard

open Std Network Run

variable {n m : Network} {s t : Session} {naming : NamingStrategy} {vl id : String}

/-- The busbar section with another section index. -/
def BusbarSection.renumbered (f : Int32 → Int32) (b : BusbarSection) : BusbarSection :=
  { b with position := b.position.map fun p => { p with sectionIndex := f p.sectionIndex } }

theorem BusbarSection.renumbered_of_fixed (b : BusbarSection) {f : Int32 → Int32}
    (h : ∀ p, b.position = some p → f p.sectionIndex = p.sectionIndex) : b.renumbered f = b := by
  unfold renumbered
  cases hp : b.position with
  | none => rw [Option.map_none, ← hp]
  | some p => rw [Option.map_some, h p hp, ← hp]

/-- No two busbar sections of the voltage level share a position. -/
def Network.Spread (n : Network) (vl : String) : Prop :=
  ∀ a a' p, (a, p) ∈ n.placedSections vl → (a', p) ∈ n.placedSections vl → a = a'

theorem Network.Coherent.nodup_placedSections (h : n.Coherent False) (vl : String) :
    ((n.placedSections vl).map (·.1.id)).Nodup := by
  have hvalues : n.busbarSections.values.Nodup :=
    nodup_values (·.id) fun id b hb => h.connectable_id id (.busbarSection b) hb
  have hplaced : (n.placedSections vl).Nodup := by
    refine (hvalues.filter _).filterMap fun a a' x hx hx' => ?_
    obtain ⟨p, -, rfl⟩ := Option.map_eq_some_iff.mp hx
    obtain ⟨p', -, he⟩ := Option.map_eq_some_iff.mp hx'
    exact (congrArg Prod.fst he).symm
  refine List.Nodup.map_on (fun x hx y hy hid => ?_) hplaced
  obtain ⟨b, p⟩ := x
  obtain ⟨b', p'⟩ := y
  obtain ⟨hb, -, hp⟩ := h.mem_placedSections_iff.mp hx
  obtain ⟨hb', -, hp'⟩ := h.mem_placedSections_iff.mp hy
  have hid : b.id = b'.id := hid
  rw [hid, hb'] at hb
  cases hb
  cases hp.symm.trans hp'
  rfl

theorem Network.Coherent.mem_placedSections (h : n.Coherent False) {b : BusbarSection}
    {p : BusbarPosition} (hb : n.busbarSections[id]? = some b) (hp : b.position = some p) :
    (b, p) ∈ n.placedSections b.voltageLevel := by
  obtain rfl : b.id = id := h.connectable_id id (.busbarSection b) hb
  exact h.mem_placedSections_iff.mpr ⟨hb, rfl, hp⟩

namespace SectionInsertion

variable (c : SectionInsertion) {first next : Option Int32} {sections : List Int32}
  {reference i j : Int32}

/-- The section indices from the given one on are raised by one. -/
def raised : Option Int32 → Int32 → Int32
  | none, i => i
  | some first, i => if first ≤ i then i + 1 else i

/-- The order stays, unless the last section index there is would be raised. -/
theorem raised_lt_raised (hij : i < j) (hj : first.isSome → j ≠ .maxValue) :
    raised first i < raised first j := by
  cases first with
  | none => exact hij
  | some first =>
    have hj := toInt_add_one (hj rfl)
    have hi := toInt_add_one (Int32.ne_of_lt (Int32.lt_of_lt_of_le hij (Int32.le_maxValue j)))
    simp only [raised, Int32.lt_iff_toInt_lt, Int32.le_iff_toInt_le] at *
    split <;> split <;> omega

/-- The second section index lies beyond the first one on the side of the insertion. -/
def Beyond (i j : Int32) : Prop :=
  if c.after then i < j else j < i

/-- The last section index on the side of the insertion. -/
def outermost : Int32 :=
  if c.after then .maxValue else .minValue

/-- Where the section indices are raised from for the new one. -/
def shiftedFrom (n : Network) (b : BusbarSection) (reference : BusbarPosition) : Option Int32 :=
  c.firstShifted (c.nextSection ((n.placedSections b.voltageLevel).map (·.2.sectionIndex))
    reference.sectionIndex) reference.sectionIndex

/-- There is a section index beyond that of the reference, and none is raised that is the last
one there is. -/
def HasIndices (n : Network) : Prop :=
  ∀ b ∈ n.busbarSections[c.busbarSection]?, ∀ reference ∈ b.position,
    reference.sectionIndex ≠ c.outermost ∧ ((c.shiftedFrom n b reference).isSome →
      ∀ x ∈ n.placedSections b.voltageLevel, x.2.sectionIndex ≠ .maxValue)

instance (n : Network) : Decidable (c.HasIndices n) :=
  inferInstanceAs (Decidable (∀ _ ∈ _, ∀ _ ∈ _, _))

theorem not_beyond_of_nextSection (h : c.nextSection sections reference = none)
    (hi : i ∈ sections) : ¬c.Beyond reference i := by
  unfold nextSection at h
  unfold Beyond
  split at h
  next hafter =>
    rw [if_pos hafter]
    exact fun hlt =>
      List.filter_eq_nil_iff.mp (List.min?_eq_none_iff.mp h) i hi (by simpa using hlt)
  next hbefore =>
    rw [if_neg hbefore]
    exact fun hlt =>
      List.filter_eq_nil_iff.mp (List.max?_eq_none_iff.mp h) i hi (by simpa using hlt)

theorem nextSection_eq_some (h : c.nextSection sections reference = some j) :
    c.Beyond reference j ∧ ∀ i ∈ sections, c.Beyond reference i → i = j ∨ c.Beyond j i := by
  unfold nextSection at h
  unfold Beyond
  split at h
  next hafter =>
    simp only [if_pos hafter]
    obtain ⟨hmem, hmin⟩ := List.min?_eq_some_iff.mp h
    refine ⟨by simpa using (List.mem_filter.mp hmem).2, fun i hi hlt => ?_⟩
    have hle := hmin i (List.mem_filter.mpr ⟨hi, by simpa using hlt⟩)
    grind
  next hbefore =>
    simp only [if_neg hbefore]
    obtain ⟨hmem, hmax⟩ := List.max?_eq_some_iff.mp h
    refine ⟨by simpa using (List.mem_filter.mp hmem).2, fun i hi hlt => ?_⟩
    have hle := hmax i (List.mem_filter.mpr ⟨hi, by simpa using hlt⟩)
    grind

theorem beyond_beside (h : i ≠ c.outermost) : c.Beyond i (c.beside i) := by
  unfold Beyond beside
  unfold outermost at h
  split
  next hafter =>
    rw [if_pos hafter] at h
    rw [Int32.lt_iff_toInt_lt, toInt_add_one h]
    omega
  next hbefore =>
    rw [if_neg hbefore] at h
    rw [Int32.lt_iff_toInt_lt, toInt_sub_one h]
    omega

/-- The reference is raised only if the new section comes before it. -/
theorem raised_reference (hreference : reference ≠ c.outermost) :
    raised (c.firstShifted next reference) reference =
      if !c.after && (c.firstShifted next reference).isSome then reference + 1 else reference := by
  have hlast : c.after → ¬reference + 1 ≤ reference := fun hafter => by
    have hnext := toInt_add_one (i := reference) (by simpa [outermost, hafter] using hreference)
    rw [Int32.le_iff_toInt_le, hnext]
    omega
  unfold firstShifted
  cases hafter : c.after <;> cases next <;> simp only [Bool.not_false, Bool.not_true]
  all_goals split <;> simp_all [raised]

theorem raised_ne_outermost (hreference : reference ≠ c.outermost)
    (hraised : (c.firstShifted next reference).isSome → reference ≠ .maxValue) :
    raised (c.firstShifted next reference) reference ≠ c.outermost := by
  rw [c.raised_reference hreference]
  split
  next hbefore =>
    obtain ⟨hafter, hsome⟩ := Bool.and_eq_true_iff.mp hbefore
    have hnext := toInt_add_one (hraised hsome)
    have hge := reference.le_toInt
    have hmin : Int32.minValue.toInt = -2147483648 := rfl
    intro he
    rw [outermost, if_neg (by simpa using hafter)] at he
    rw [he] at hnext
    omega
  next => exact hreference

/-- Room is made for the new section index: what was beyond the reference is beyond it. -/
theorem beyond_of_beyond_reference (hi : i ∈ sections) (h : c.Beyond reference i)
    (hreference : reference ≠ c.outermost)
    (hraised : (c.firstShifted (c.nextSection sections reference) reference).isSome →
      i ≠ .maxValue) :
    c.Beyond (c.beside (raised (c.firstShifted (c.nextSection sections reference) reference)
        reference))
      (raised (c.firstShifted (c.nextSection sections reference) reference) i) := by
  rw [c.raised_reference hreference]
  cases hnext : c.nextSection sections reference with
  | none => exact absurd h (c.not_beyond_of_nextSection hnext hi)
  | some j =>
    obtain ⟨hj, hclosest⟩ := c.nextSection_eq_some hnext
    have hcases := hclosest i hi h
    rw [hnext] at hraised
    unfold Beyond at *
    unfold firstShifted beside raised at *
    unfold outermost at hreference
    -- Sections that are further apart than by one leave room between them.
    cases hafter : c.after <;> simp only [hafter, if_true, if_false, Bool.false_eq_true] at *
    · have hback : reference + 1 - 1 = reference := by grind
      have hbefore := toInt_sub_one hreference
      by_cases hgap : (reference - j).abs = 1
      · simpa [hgap, hback, Int32.not_le.mpr h] using h
      · have hapart : j ≠ reference - 1 := fun he => hgap (by
          rw [he, show reference - (reference - 1) = 1 by grind]
          rfl)
        rw [Ne, ← Int32.toInt_inj] at hapart
        simp only [← Int32.toInt_inj, Int32.lt_iff_toInt_lt] at hj hcases
        simp only [hgap, if_false, Option.isSome_none, Bool.and_false, Bool.false_eq_true,
          Int32.lt_iff_toInt_lt]
        omega
    · have hnext := toInt_add_one hreference
      by_cases hgap : (reference - j).abs = 1
      · have hi := toInt_add_one (hraised (by simp [hgap]))
        have hfirst : reference + 1 ≤ i := by
          rw [Int32.lt_iff_toInt_lt] at h
          rw [Int32.le_iff_toInt_le]
          omega
        simp only [hgap, if_true, Bool.not_true, Bool.false_and, Bool.false_eq_true, if_false,
          hfirst, Int32.lt_iff_toInt_lt] at h ⊢
        omega
      · have hapart : j ≠ reference + 1 := fun he => hgap (by
          rw [he, show reference - (reference + 1) = -1 by grind]
          rfl)
        rw [Ne, ← Int32.toInt_inj] at hapart
        simp only [← Int32.toInt_inj, Int32.lt_iff_toInt_lt] at hj hcases
        simp only [hgap, if_false, Bool.not_true, Bool.false_and, Bool.false_eq_true,
          Int32.lt_iff_toInt_lt]
        omega

theorem shift_eq_ok {moves : List (String × BusbarPosition)} (hnodup : (moves.map (·.1)).Nodup)
    (hmoves : ∀ x ∈ moves, ∃ b, s.network.busbarSections[x.1]? = some b ∧ b.position = some x.2)
    (h : shift moves s = .ok () t) (id : String) :
    (id ∈ moves.map (·.1) → t.network.busbarSections[id]? =
        s.network.busbarSections[id]?.map (·.renumbered (· + 1))) ∧
      (id ∉ moves.map (·.1) →
        t.network.busbarSections[id]? = s.network.busbarSections[id]?) := by
  induction moves generalizing s with
  | nil =>
    obtain ⟨-, rfl⟩ := pure_eq_ok.mp h
    simp
  | cons move rest ih =>
    obtain ⟨x, p⟩ := move
    obtain ⟨⟨b, hb, hp⟩, hrest⟩ := List.forall_mem_cons.mp hmoves
    obtain ⟨hnot, hnodup⟩ := List.nodup_cons.mp hnodup
    simp only [shift, bind_eq_ok, edit_eq_ok] at h
    obtain ⟨_, _, ⟨k, hset, rfl⟩, h⟩ := h
    rw [Edit.setBusbarPosition_of_some hb] at hset
    cases hset
    have hput : ∀ y : String, (s.network.put x (.busbarSection
        { b with position := some { p with sectionIndex := p.sectionIndex + 1 } })
          ).busbarSections[y]? =
          if x = y then some (b.renumbered (· + 1)) else s.network.busbarSections[y]? := fun y => by
      simp [Network.put, ExtTreeMap.getElem?_insert, BusbarSection.renumbered, hp]
    obtain ⟨hmoved, hstays⟩ := ih hnodup (fun y hy => by
      obtain ⟨a, ha, hq⟩ := hrest y hy
      have hne : x ≠ y.1 := fun he => hnot (List.mem_map.mpr ⟨y, hy, he.symm⟩)
      exact ⟨a, ((hput y.1).trans (if_neg hne)).trans ha, hq⟩) h
    by_cases hx : x = id
    · subst hx
      refine ⟨fun _ => ?_, fun hout => absurd List.mem_cons_self hout⟩
      have hb : s.network.busbarSections[x]? = some b := hb
      rw [hstays hnot, hb]
      exact (hput x).trans (if_pos rfl)
    · have hsame := (hput id).trans (if_neg hx)
      refine ⟨fun hin => ?_, fun hout => ?_⟩
      · rw [hmoved ((List.mem_cons.mp hin).resolve_left (Ne.symm hx))]
        exact congrArg _ hsame
      · rw [hstays fun hin => hout (List.mem_cons_of_mem _ hin)]
        exact hsame

theorem mem_moves_iff (hn : n.Coherent False) {first : Int32} :
    id ∈ (((n.placedSections vl).filter (first ≤ ·.2.sectionIndex)).map
        fun x => (x.1.id, x.2)).map (·.1) ↔
      ∃ b p, n.busbarSections[id]? = some b ∧ b.voltageLevel = vl ∧ b.position = some p ∧
        first ≤ p.sectionIndex := by
  simp only [List.map_map, List.mem_map, List.mem_filter, Function.comp_apply, Prod.exists,
    hn.mem_placedSections_iff, decide_eq_true_eq]
  constructor
  · rintro ⟨b, p, ⟨⟨hb, hvl, hp⟩, hle⟩, rfl⟩
    exact ⟨b, p, hb, hvl, hp, hle⟩
  · rintro ⟨b, p, hb, hvl, hp, hle⟩
    obtain rfl : b.id = id := hn.connectable_id id (.busbarSection b) hb
    exact ⟨b, p, ⟨⟨hb, hvl, hp⟩, hle⟩, rfl⟩

/-- The sections of the voltage level from the section index on are raised, and no others. -/
theorem shiftSections_eq_ok (hs : s.network.Coherent False) {first : Int32}
    (h : shiftSections vl first s = .ok () t) (id : String) :
    t.network.busbarSections[id]? = s.network.busbarSections[id]?.map fun b =>
      if b.voltageLevel = vl then b.renumbered (raised (some first)) else b := by
  simp only [shiftSections, bind_eq_ok, network_eq_ok, emit_eq_ok] at h
  obtain ⟨_, _, ⟨rfl, rfl⟩, _, u, hshift, rfl⟩ := h
  obtain ⟨hmoved, hstays⟩ := shift_eq_ok
    (by rw [List.map_map]; exact (hs.nodup_placedSections vl).sublist (List.filter_sublist.map _))
    (fun x hx => by
      obtain ⟨⟨b, p⟩, hb, rfl⟩ := List.mem_map.mp hx
      obtain ⟨hb, -, hp⟩ := hs.mem_placedSections_iff.mp (List.mem_of_mem_filter hb)
      exact ⟨b, hb, hp⟩) hshift id
  change u.network.busbarSections[id]? = _
  by_cases hin : ∃ b p, s.network.busbarSections[id]? = some b ∧
      b.voltageLevel = vl ∧ b.position = some p ∧ first ≤ p.sectionIndex
  · rw [hmoved ((mem_moves_iff hs).mpr hin)]
    obtain ⟨b, p, hb, hvl, hp, hle⟩ := hin
    simp only [hb, Option.map_some, if_pos hvl, BusbarSection.renumbered, raised, hp, if_pos hle]
  · rw [hstays fun h => hin ((mem_moves_iff hs).mp h)]
    cases hb : s.network.busbarSections[id]? with
    | none => rfl
    | some b =>
      rw [Option.map_some]
      split
      next hvl =>
        refine congrArg some (b.renumbered_of_fixed fun p hp => ?_).symm
        exact if_neg fun hle => hin ⟨b, p, hb, hvl, hp, hle⟩
      next => rfl

/-- The busbar section is new beside the one that has the id, at the place of which it
gets the next section index. -/
def IsBeside (n : Network) (vl : String) (r : Rail) (b : BusbarSection) : Prop :=
  ∃ p, n.busbarSections[r.id]?.bind (·.position) = some p ∧ b.voltageLevel = vl ∧
    b.position = some { p with sectionIndex := c.beside p.sectionIndex }

theorem busbarSections_insertSection {e : Extension} (hs : s.network.Coherent False)
    (h : c.insertSection naming vl e s = .ok () t) :
    ∃ b, c.IsBeside s.network vl e.rail b ∧ b.id ∉ s.network.busbarSections ∧
      t.network.busbarSections = s.network.busbarSections.insert b.id b := by
  obtain ⟨u, p, w, id, v, x, hremove, hp, -, hcreate, hlinks, hlast⟩ := c.insertSection_eq_ok h
  have hu := busbarSections_removeSwitches hremove
  have hmade : (removeSwitches e.switches).Inserts {id | id ∈ e.switches} s :=
    makes_removeSwitches fun _ hid => hid
  have hcoherent := (hmade.preserves hs hremove).1
  obtain ⟨hid, w', w'', -, -, hv⟩ := BusbarSectionDraft.create_eq_ok hcreate
  have ht : t.network.busbarSections = v.network.busbarSections := by
    rcases hlast with ⟨-, rfl⟩ | ⟨other, -, hother⟩
    · exact hlinks.busbarSections_eq
    · exact hother.busbarSections_eq.trans hlinks.busbarSections_eq
  let b : BusbarSection :=
    { id, name := some (toString w.nextNode), voltageLevel := vl, node := w.nextNode,
      position := some { p with sectionIndex := c.beside p.sectionIndex } }
  refine ⟨b, ⟨p, by rwa [← hu], rfl, rfl⟩, fun hin => ?_, ?_⟩
  · obtain ⟨a, ha⟩ := mem_iff_exists_getElem?.mp hin
    rw [← hu] at ha
    exact hcoherent.stores_of_index hid _ (.connectable (c := .busbarSection a) ha)
  · rw [ht, hv, ← hu]
    rfl

/-- The second map is the first one with the busbar sections besides, under their ids. -/
structure Added (e e' : ExtTreeMap String BusbarSection) (new : List BusbarSection) : Prop where
  nodup : (new.map (·.id)).Nodup
  fresh : ∀ b ∈ new, b.id ∉ e
  getElem?_iff : ∀ (x : String) b, e'[x]? = some b ↔ e[x]? = some b ∨ b ∈ new ∧ b.id = x

namespace Added

variable {e e' : ExtTreeMap String BusbarSection} {new : List BusbarSection}

theorem nil (e : ExtTreeMap String BusbarSection) : Added e e [] where
  nodup := List.nodup_nil
  fresh := by simp
  getElem?_iff := by simp

theorem cons {b : BusbarSection} (hb : b.id ∉ e) (h : Added (e.insert b.id b) e' new) :
    Added e e' (b :: new) := by
  have hapart : ∀ b' ∈ new, b'.id ≠ b.id ∧ b'.id ∉ e := by
    intro b' hb'
    have hno := h.fresh b' hb'
    rw [ExtTreeMap.mem_insert, not_or] at hno
    exact ⟨fun hid => hno.1 (by simp [hid]), hno.2⟩
  refine ⟨List.nodup_cons.mpr ⟨fun hin => ?_, h.nodup⟩,
    List.forall_mem_cons.mpr ⟨hb, fun b' hb' => (hapart b' hb').2⟩, fun x a => ?_⟩
  · obtain ⟨b', hb', hid⟩ := List.mem_map.mp hin
    exact (hapart b' hb').1 hid
  · simp only [h.getElem?_iff, ExtTreeMap.getElem?_insert, Std.compare_eq_iff_eq, List.mem_cons]
    by_cases hid : b.id = x
    · subst hid
      have hno : ¬(a ∈ new ∧ a.id = b.id) := fun hin => (hapart a hin.1).1 hin.2
      rw [if_pos rfl, ExtTreeMap.getElem?_eq_none hb]
      constructor
      · rintro (ha | hin)
        · exact Or.inr ⟨Or.inl (Option.some.inj ha).symm, congrArg (·.id) (Option.some.inj ha).symm⟩
        · exact absurd hin hno
      · rintro (ha | ⟨rfl | hin, hid⟩)
        · cases ha
        · exact Or.inl rfl
        · exact absurd ⟨hin, hid⟩ hno
    · rw [if_neg hid]
      refine or_congr_right ⟨fun hin => ⟨Or.inr hin.1, hin.2⟩, ?_⟩
      rintro ⟨rfl | hin, hx⟩
      · exact absurd hx hid
      · exact ⟨hin, hx⟩

end Added

/-- The insertions add a new section each and leave the others as they are. -/
theorem busbarSections_insertSections {es : List Extension} (hs : s.network.Coherent False)
    (hes : ∀ e ∈ es, e.rail.id ∈ s.network.busbarSections)
    (h : c.insertSections naming vl es s = .ok () t) :
    ∃ new, List.Forall₂ (c.IsBeside s.network vl) (es.map (·.rail)) new ∧
      Added s.network.busbarSections t.network.busbarSections new := by
  induction es generalizing s with
  | nil =>
    obtain ⟨-, rfl⟩ := pure_eq_ok.mp h
    exact ⟨[], .nil, .nil _⟩
  | cons e rest ih =>
    simp only [insertSections, bind_eq_ok] at h
    obtain ⟨_, u, hinsert, h⟩ := h
    obtain ⟨b, hb, hfresh, hu⟩ := c.busbarSections_insertSection hs hinsert
    have hmade : (c.insertSection naming vl e).Inserts {id | id ∈ e.switches} s :=
      c.inserts_insertSection fun _ => id
    obtain ⟨he, hrest⟩ := List.forall_mem_cons.mp hes
    obtain ⟨new, hnew, hadded⟩ := ih (hmade.preserves hs hinsert).1
      (fun e' he' => by rw [hu]; exact ExtTreeMap.mem_insert.mpr (Or.inr (hrest e' he'))) h
    rw [hu] at hadded
    refine ⟨b :: new, .cons hb ?_, hadded.cons hfresh⟩
    -- What the other sections are beside was there before.
    have hthere : ∀ r ∈ rest.map (·.rail), r.id ∈ s.network.busbarSections :=
      List.forall_mem_map.mpr hrest
    refine ((List.forall₂_and_left _ _).mpr ⟨hthere, hnew⟩).imp fun r b' hr => ?_
    obtain ⟨hr, p, hp, hplace⟩ := hr
    have hne : ¬compare b.id r.id = .eq := fun hid =>
      hfresh (Std.compare_eq_iff_eq.mp hid ▸ hr)
    exact ⟨p, by rwa [hu, ExtTreeMap.getElem?_insert, if_neg hne] at hp, hplace⟩

/-- The busbar sections to put new ones next to. -/
def besides (n : Network) (b : BusbarSection) (reference : BusbarPosition) : List BusbarSection :=
  if c.allBusbars then n.parallelSections b.voltageLevel reference.sectionIndex else [b]

/-- How the sections of a voltage level are numbered once the new ones are there, all of
them at the section index `j`. -/
structure Numbered (n m : Network) (b : BusbarSection) (reference : BusbarPosition)
    (f : Int32 → Int32) (j : Int32) (new : List BusbarSection) : Prop where
  /-- Smaller section indices of the voltage level stay smaller. -/
  order : ∀ x ∈ n.placedSections b.voltageLevel, ∀ y ∈ n.placedSections b.voltageLevel,
    x.2.sectionIndex < y.2.sectionIndex → f x.2.sectionIndex < f y.2.sectionIndex
  /-- Busbar sections are as they were, but for the section indices of the voltage level. -/
  sections : ∀ (id : String) a, m.busbarSections[id]? = some a ↔
    (∃ a', n.busbarSections[id]? = some a' ∧
      a = if a'.voltageLevel = b.voltageLevel then a'.renumbered f else a') ∨ a ∈ new ∧ a.id = id
  ids : (new.map (·.id)).Nodup ∧ ∀ a ∈ new, a.id ∉ n.busbarSections
  /-- Each new section is on the busbar of the one that it is put next to. -/
  busbars : List.Forall₂ (fun old a => a.voltageLevel = b.voltageLevel ∧
    a.position = old.position.map ({ · with sectionIndex := j })) (c.besides n b reference) new
  beyond : c.Beyond (f reference.sectionIndex) j
  before_next : ∀ a p, (a, p) ∈ n.placedSections b.voltageLevel →
    c.Beyond reference.sectionIndex p.sectionIndex → c.Beyond j (f p.sectionIndex)

variable {c} {b : BusbarSection} {reference : BusbarPosition}

theorem of_mem_besides (hn : n.Coherent False) (hb : n.busbarSections[id]? = some b)
    (hp : b.position = some reference) {old : BusbarSection}
    (hold : old ∈ c.besides n b reference) :
    n.busbarSections[old.id]? = some old ∧ old.voltageLevel = b.voltageLevel ∧
      ∃ p, old.position = some p ∧ p.sectionIndex = reference.sectionIndex := by
  unfold besides at hold
  split at hold
  · rw [← map_filter_placedSections] at hold
    obtain ⟨⟨old, p⟩, hmem, rfl⟩ := List.mem_map.mp hold
    obtain ⟨hplaced, hi⟩ := List.mem_filter.mp hmem
    obtain ⟨hold, hvl, hp⟩ := hn.mem_placedSections_iff.mp hplaced
    exact ⟨hold, hvl, p, hp, by simpa using hi⟩
  · obtain rfl := List.mem_singleton.mp hold
    obtain rfl : old.id = id := hn.connectable_id id (.busbarSection old) hb
    exact ⟨hb, rfl, reference, hp, rfl⟩

theorem map_extended (c : SectionInsertion) (n : Network) (b : BusbarSection)
    (reference : BusbarPosition) :
    (c.extended n b reference).map (·.1) = (c.besides n b reference).map (·.rail) := by
  unfold extended besides
  split
  · rw [← map_filter_placedSections, List.map_map, List.map_map]
    rfl
  · rfl

theorem nodup_besides (hn : n.Coherent False) : (c.besides n b reference).Nodup := by
  unfold besides
  split
  · exact (hn.nodup_parallelSections _ _).of_map _
  · exact List.nodup_singleton _

namespace Numbered

variable {f : Int32 → Int32} {new : List BusbarSection}

theorem le_of_le (h : c.Numbered n m b reference f j new) {x y : BusbarSection × BusbarPosition}
    (hx : x ∈ n.placedSections b.voltageLevel) (hy : y ∈ n.placedSections b.voltageLevel)
    (hle : x.2.sectionIndex ≤ y.2.sectionIndex) : f x.2.sectionIndex ≤ f y.2.sectionIndex := by
  rcases Int32.lt_or_eq_of_le hle with hlt | he
  · exact Int32.le_of_lt (h.order x hx y hy hlt)
  · rw [he]
    exact Int32.le_refl _

theorem injective (h : c.Numbered n m b reference f j new) {x y : BusbarSection × BusbarPosition}
    (hx : x ∈ n.placedSections b.voltageLevel) (hy : y ∈ n.placedSections b.voltageLevel)
    (hf : f x.2.sectionIndex = f y.2.sectionIndex) : x.2.sectionIndex = y.2.sectionIndex := by
  have hlt := h.order x hx y hy
  have hgt := h.order y hy x hx
  grind

theorem apart (h : c.Numbered n m b reference f j new)
    (hb : (b, reference) ∈ n.placedSections b.voltageLevel) {a : BusbarSection}
    {p : BusbarPosition} (ha : (a, p) ∈ n.placedSections b.voltageLevel) :
    f p.sectionIndex ≠ j := by
  have hbeyond := h.beyond
  have hnext := h.before_next a p ha
  unfold Beyond at hbeyond hnext
  intro he
  rw [he] at hnext
  split at hbeyond
  next hafter =>
    simp only [if_pos hafter, Int32.lt_irrefl, imp_false, Int32.not_lt] at hnext
    have hlow := h.le_of_le ha hb hnext
    grind
  next hbefore =>
    simp only [if_neg hbefore, Int32.lt_irrefl, imp_false, Int32.not_lt] at hnext
    have hlow := h.le_of_le hb ha hnext
    grind

theorem positions_eq (h : c.Numbered n m b reference f j new) :
    new.map (·.position) =
      (c.besides n b reference).map fun old => old.position.map ({ · with sectionIndex := j }) := by
  have hsame : List.Forall₂ (· = ·)
      ((c.besides n b reference).map fun old => old.position.map ({ · with sectionIndex := j }))
      (new.map (·.position)) :=
    List.forall₂_map_left_iff.mpr <| List.forall₂_map_right_iff.mpr <|
      h.busbars.imp fun _ _ hplace => hplace.2.symm
  rw [List.forall₂_eq_eq_eq] at hsame
  exact hsame.symm

/-- A busbar section of the voltage level was there at another section index, or is new. -/
theorem of_mem_placedSections (h : c.Numbered n m b reference f j new) (hn : n.Coherent False)
    (hm : m.Coherent False) {a : BusbarSection} {p : BusbarPosition}
    (ha : (a, p) ∈ m.placedSections b.voltageLevel) :
    (∃ a' p', (a', p') ∈ n.placedSections b.voltageLevel ∧ a = a'.renumbered f ∧
        p = { p' with sectionIndex := f p'.sectionIndex }) ∨
      a ∈ new ∧ a.position = some p ∧ p.sectionIndex = j := by
  obtain ⟨hstored, hvl, hp⟩ := hm.mem_placedSections_iff.mp ha
  rcases (h.sections a.id a).mp hstored with ⟨a', ha', hsame⟩ | ⟨hin, -⟩
  · refine Or.inl ?_
    have hid : a'.id = a.id := hn.connectable_id a.id (.busbarSection a') ha'
    split at hsame
    next hvl' =>
      subst hsame
      obtain ⟨p', hp', rfl⟩ := Option.map_eq_some_iff.mp hp
      exact ⟨a', p', hn.mem_placedSections_iff.mpr ⟨hid ▸ ha', hvl', hp'⟩, rfl, rfl⟩
    next hvl' => exact absurd (hsame ▸ hvl) hvl'
  · have hposition : a.position ∈ new.map (·.position) := List.mem_map_of_mem hin
    rw [h.positions_eq, hp] at hposition
    obtain ⟨old, -, hold⟩ := List.mem_map.mp hposition
    obtain ⟨q, -, rfl⟩ := Option.map_eq_some_iff.mp hold
    exact Or.inr ⟨hin, hp, rfl⟩

theorem nodup_positions (h : c.Numbered n m b reference f j new) (hn : n.Coherent False)
    (hb : n.busbarSections[id]? = some b) (hp : b.position = some reference)
    (hspread : n.Spread b.voltageLevel) : (new.map (·.position)).Nodup := by
  rw [h.positions_eq]
  refine List.Nodup.map_on (fun old hold old' hold' he => ?_) (nodup_besides hn)
  obtain ⟨hstored, hvl, q, hq, hi⟩ := of_mem_besides hn hb hp hold
  obtain ⟨hstored', hvl', q', hq', hi'⟩ := of_mem_besides hn hb hp hold'
  simp only [hq, hq', Option.map_some, Option.some.injEq, BusbarPosition.mk.injEq,
    and_true] at he
  have hplace : q = q' := by
    cases q
    cases q'
    simp_all
  exact hspread old old' q (hn.mem_placedSections_iff.mpr ⟨hstored, hvl, hq⟩)
    (hn.mem_placedSections_iff.mpr ⟨hstored', hvl', hplace ▸ hq'⟩)

theorem spread (h : c.Numbered n m b reference f j new) (hn : n.Coherent False)
    (hm : m.Coherent False) (hb : n.busbarSections[id]? = some b)
    (hp : b.position = some reference) (hspread : n.Spread b.voltageLevel) :
    m.Spread b.voltageLevel := by
  have hplaced := hn.mem_placedSections hb hp
  intro a a' p ha ha'
  rcases h.of_mem_placedSections hn hm ha with ⟨o, q, ho, rfl, rfl⟩ | ⟨hin, hpos, hj⟩
  · rcases h.of_mem_placedSections hn hm ha' with ⟨o', q', ho', rfl, hplace⟩ | ⟨-, -, hj⟩
    · obtain ⟨hbusbar, hsection⟩ := BusbarPosition.mk.inj hplace
      have hsection : q.sectionIndex = q'.sectionIndex := (h.injective ho' ho hsection.symm).symm
      have hq : q = q' := by
        cases q
        cases q'
        simp_all
      rw [hspread o o' q ho (hq ▸ ho')]
    · exact absurd hj (h.apart hplaced ho)
  · rcases h.of_mem_placedSections hn hm ha' with ⟨o', q', ho', rfl, rfl⟩ | ⟨hin', hpos', -⟩
    · exact absurd hj (h.apart hplaced ho')
    · exact List.inj_on_of_nodup_map (h.nodup_positions hn hb hp hspread) hin hin'
        (hpos.trans hpos'.symm)

end Numbered

theorem busbarSections_shifted (hs : s.network.Coherent False) (first : Option Int32)
    (h : match first with
      | some k => shiftSections vl k s = .ok () t
      | none => t = s) :
    t.network.Coherent False ∧ ∀ x : String, t.network.busbarSections[x]? =
      s.network.busbarSections[x]?.map fun a =>
        if a.voltageLevel = vl then a.renumbered (raised first) else a := by
  cases first with
  | none =>
    subst h
    have hstays : ∀ a : BusbarSection, a.renumbered (raised none) = a := fun a =>
      a.renumbered_of_fixed fun _ _ => rfl
    exact ⟨hs, fun x => by simp only [hstays, ite_self, Option.map_id']⟩
  | some k =>
    have hshift : shiftSections vl k s = .ok () t := h
    exact ⟨((inserts_shiftSections (X := ∅)).preserves hs hshift).1, shiftSections_eq_ok hs hshift⟩

theorem numbered_of_steps (hs : s.network.Coherent False) (hindices : c.HasIndices s.network)
    (h : c.steps naming s = .ok () t) :
    ∃ b reference f j new, s.network.busbarSections[c.busbarSection]? = some b ∧
      b.position = some reference ∧ c.Numbered s.network t.network b reference f j new := by
  obtain ⟨b, reference, es, u, hb, hp, -, hes, hshift, hinsert⟩ := c.steps_eq_ok h
  let first := c.shiftedFrom s.network b reference
  obtain ⟨houtermost, hlast⟩ := hindices b hb reference hp
  have hplaced := hs.mem_placedSections hb hp
  obtain ⟨hu, hmoved⟩ := busbarSections_shifted hs first hshift
  have hrails : es.map (·.rail) = (c.besides s.network b reference).map (·.rail) := by
    rw [← c.map_extended]
    exact (findNeighbours_eq_ok hes).2.1
  have hget : ∀ old ∈ c.besides s.network b reference, u.network.busbarSections[old.id]? =
      some (old.renumbered (raised first)) := by
    intro old hold
    obtain ⟨hstored, hvl, -⟩ := of_mem_besides hs hb hp hold
    rw [hmoved, hstored, Option.map_some, if_pos hvl]
  have hthere : ∀ e ∈ es, e.rail.id ∈ u.network.busbarSections := by
    intro e he
    have hrail : e.rail ∈ es.map (·.rail) := List.mem_map_of_mem he
    rw [hrails] at hrail
    obtain ⟨old, hold, hsame⟩ := List.mem_map.mp hrail
    have hid : old.id = e.rail.id := congrArg Rail.id hsame
    exact mem_iff_exists_getElem?.mpr ⟨_, hid ▸ hget old hold⟩
  obtain ⟨new, hnew, hadded⟩ := c.busbarSections_insertSections hu hthere hinsert
  refine ⟨b, reference, raised first, c.beside (raised first reference.sectionIndex), new, hb, hp,
    fun x _ y hy hlt => raised_lt_raised hlt fun hsome => hlast hsome y hy, fun x a => ?_,
    ⟨hadded.nodup, fun a ha hin => ?_⟩, ?_,
    c.beyond_beside (c.raised_ne_outermost houtermost fun hsome => hlast hsome _ hplaced),
    fun a p ha hbeyond => ?_⟩
  · rw [hadded.getElem?_iff, hmoved, Option.map_eq_some_iff]
    simp only [eq_comm]
  · obtain ⟨a', ha'⟩ := mem_iff_exists_getElem?.mp hin
    exact hadded.fresh a ha (mem_iff_exists_getElem?.mpr ⟨_, by rw [hmoved, ha', Option.map_some]⟩)
  · rw [hrails, List.forall₂_map_left_iff] at hnew
    refine ((List.forall₂_and_left _ _).mpr ⟨fun old hold => hold, hnew⟩).imp ?_
    rintro old a ⟨hold, q, hq, hvl, hplace⟩
    obtain ⟨-, -, p, hp', hi⟩ := of_mem_besides hs hb hp hold
    refine ⟨hvl, ?_⟩
    have hq : (old.renumbered (raised first)).position = some q := by
      have hgot : u.network.busbarSections[old.rail.id]? = some (old.renumbered (raised first)) :=
        hget old hold
      rwa [hgot, Option.bind_some] at hq
    simp only [BusbarSection.renumbered, hp', Option.map_some, Option.some.injEq] at hq
    rw [hplace, hp', ← hq, ← hi]
    rfl
  · exact c.beyond_of_beyond_reference (List.mem_map_of_mem (f := (·.2.sectionIndex)) ha) hbeyond
      houtermost fun hsome => hlast hsome _ ha

end SectionInsertion

namespace Modification

/-- Two busbars of two sections each, where a switch joins the sections of each busbar. -/
def sectionedBusbars : List Operation :=
  [.change (.addVoltageLevel { id := "V" }),
    .change (.addBusbarSection
      { voltageLevel := "V", id := "A1", node := 0, position := some ⟨1, 1⟩ }),
    .change (.addBusbarSection
      { voltageLevel := "V", id := "A2", node := 1, position := some ⟨2, 1⟩ }),
    .change (.addBusbarSection
      { voltageLevel := "V", id := "B1", node := 2, position := some ⟨1, 2⟩ }),
    .change (.addBusbarSection
      { voltageLevel := "V", id := "B2", node := 3, position := some ⟨2, 2⟩ }),
    .change (.addSwitch { voltageLevel := "V", id := "D1", node1 := 0, node2 := 2 }),
    .change (.addSwitch { voltageLevel := "V", id := "D2", node1 := 1, node2 := 3 })]

/-- Two sections of a busbar, with the last two section indices there are. -/
def lastSections : List Operation :=
  [.change (.addVoltageLevel { id := "V" }),
    .change (.addBusbarSection
      { voltageLevel := "V", id := "A1", node := 0, position := some ⟨1, 2147483646⟩ }),
    .change (.addBusbarSection
      { voltageLevel := "V", id := "B1", node := 1, position := some ⟨1, .maxValue⟩ }),
    .change (.addSwitch { voltageLevel := "V", id := "K", node1 := 0, node2 := 1 })]

end Modification

end Switchyard
