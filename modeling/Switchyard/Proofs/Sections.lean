import Switchyard.SectionInsertion
import Switchyard.Proofs.Building

namespace Switchyard

open Std Network Run

variable [Numbering]

/-- A busbar section with a position is stored under the id. -/
def Network.Placed (n : Network) (id : String) : Prop :=
  ∃ b p, n.busbarSections[id]? = some b ∧ b.position = some p

theorem Session.Retains.placed {s t : Session} (h : s.Retains t) {id : String}
    (hid : s.network.Placed id) : t.network.Placed id := by
  obtain ⟨b, p, hb, hp⟩ := hid
  exact ⟨b, p, h id (.busbarSection b) hb, hp⟩

theorem Network.Coherent.placed_of_mem {tight : Prop} {n : Network} (h : n.Coherent tight)
    {vl : String} {b : BusbarSection} {p : BusbarPosition} (hb : (b, p) ∈ n.placedSections vl) :
    n.Placed b.id := by
  obtain ⟨c, hc, hp⟩ := List.mem_filterMap.mp hb
  obtain ⟨q, hq, he⟩ := Option.map_eq_some_iff.mp hp
  obtain ⟨rfl, rfl⟩ := Prod.mk.inj he
  obtain ⟨id, hid⟩ := mem_values_iff.mp (List.mem_filter.mp hc).1
  have heq := h.connectable_id id (.busbarSection c) hid
  subst heq
  exact ⟨c, q, hid, hq⟩

namespace SectionInsertion

variable {tight : Prop} {doomed : String → Prop} {s : Session}

theorem builds_removeSwitches (ids : List String) :
    Builds tight doomed (removeSwitches ids) s := by
  induction ids generalizing s with
  | nil => exact Builds.pure
  | cons id rest ih =>
    refine Traced.told_bind fun hs => ?_
    obtain ⟨vl, t, u, m, hi, -, hrun, hm, hindex, hkeeps, -⟩ | ⟨-, hr⟩ :=
      Edit.removeSwitch_cases hs id
    · have hmem : id ∈ s.network.index := mem_iff_exists_getElem?.mpr ⟨_, hi⟩
      refine Or.inl ⟨(), m, hrun, .lose hm hmem hindex rfl rfl, ?_⟩
      exact ih.mono fun _ _ ht x c hc => ht x c ((hkeeps x c).mpr hc)
    · exact Or.inr hr

/-- Section indices are raised, and no position is lost. -/
theorem traced_shift (moves : List (String × BusbarPosition)) :
    Traced tight doomed (shift moves) s fun _ t =>
      ∀ id, s.network.Placed id → t.network.Placed id := by
  induction moves generalizing s with
  | nil => exact Traced.pure fun _ h => h
  | cons move rest ih =>
    obtain ⟨id, p⟩ := move
    refine Traced.bind (p := fun _ t => ∀ x, s.network.Placed x → t.network.Placed x)
      (Traced.quiet fun hs => ?_) fun _ t hst => ih.mono fun _ _ htu x hx => htu x (hst x hx)
    obtain ⟨m, hok, hm, hi, hkept⟩ | hr := Edit.setBusbarPosition_cases hs id
      (some { p with sectionIndex := p.sectionIndex + 1 })
    · refine Or.inl ⟨(), m, hok, hm, hi, fun x hx => ?_⟩
      obtain ⟨b, q, hb, hq⟩ := hx
      obtain ⟨b', hb', hp | rfl⟩ := hkept x b hb
      · exact ⟨b', _, hb', hp⟩
      · exact ⟨b', q, hb', hq⟩
    · exact Or.inr hr

theorem traced_shiftSections (vl : String) (first : Int32) :
    Traced tight doomed (shiftSections vl first) s fun _ t =>
      ∀ id, s.network.Placed id → t.network.Placed id :=
  Traced.network_bind <| Traced.bind (traced_shift _) fun _ _ hst => Traced.emit rfl rfl hst

theorem traced_findNeighbours (vl : String) (next : Option Int32) (rails : List (Rail × Int32)) :
    Traced tight doomed (findNeighbours vl next rails) s fun found t =>
      t = s ∧ ∀ e ∈ found, e.rail ∈ rails.map (·.1) := by
  induction rails generalizing s with
  | nil => exact Traced.pure ⟨rfl, by simp⟩
  | cons x rest ih =>
    obtain ⟨rail, busbarIndex⟩ := x
    have htail : ∀ neighbour, Traced tight doomed
        (findNeighbours vl next rest >>= fun found => pure (⟨rail, neighbour⟩ :: found)) s
        fun found t => t = s ∧ ∀ e ∈ found, e.rail ∈ ((rail, busbarIndex) :: rest).map (·.1) := by
      intro neighbour
      refine Traced.bind ih ?_
      intro found _ hx
      obtain ⟨rfl, hfound⟩ := hx
      refine Traced.pure ⟨rfl, List.forall_mem_cons.mpr ⟨List.mem_cons_self, fun e he => ?_⟩⟩
      exact List.mem_cons_of_mem _ (hfound e he)
    cases next with
    | none => exact htail none
    | some i =>
      refine Traced.network_bind (Traced.lookUp_bind (fun w hw => ?_) fun _ => kind_of_wiring_error)
      split
      · exact Traced.refuse (by simp [Fault.kind])
      · exact htail _

theorem builds_insertSection (m : SectionInsertion) (naming : NamingStrategy)
    (hd : ∀ vl, ¬doomed vl) (vl : String) (e : Extension) (he : s.network.Placed e.rail.id) :
    Builds tight doomed (m.insertSection naming vl e) s := by
  refine Builds.bind_retains (builds_removeSwitches _) fun _ t hst => Traced.network_bind ?_
  obtain ⟨b, p, hb, hp⟩ := hst.placed he
  rw [hb, Option.bind_some, hp]
  refine Builds.bind (builds_nextNode vl) fun node _ => ?_
  refine Builds.told_bind (fun hs => BusbarSectionDraft.create_cases hs _) ?_ (fun _ => rfl)
    (fun _ => rfl) fun id _ => ?_
  · intro _ hx
    cases hx
    exact hd vl
  have hlink : ∀ (l : SectionLink) a b u,
      Builds tight doomed (createSectionLink naming vl vl l.kind a b l.fictitious) u :=
    fun l a b u => builds_createSectionLink naming (hd vl) _ _ _ _ _
  refine Traced.ite (fun _ => Builds.bind (hlink _ _ _ _) fun _ u => ?_) fun _ =>
    Builds.bind (hlink _ _ _ _) fun _ u => ?_
  all_goals
    split
    · exact Builds.pure
    · exact Traced.ite (fun _ => hlink _ _ _ _) fun _ => hlink _ _ _ _

theorem traced_insertSections (m : SectionInsertion) (naming : NamingStrategy)
    (hd : ∀ vl, ¬doomed vl) (vl : String) (es : List Extension)
    (hes : ∀ e ∈ es, s.network.Placed e.rail.id) :
    Traced tight doomed (m.insertSections naming vl es) s fun _ _ => True := by
  induction es generalizing s with
  | nil => exact Traced.pure trivial
  | cons e rest ih =>
    obtain ⟨he, hrest⟩ := List.forall_mem_cons.mp hes
    exact Traced.bind (m.builds_insertSection naming hd vl e he) fun _ t hst =>
      ih fun x hx => hst.placed (hrest x hx)

theorem traced_steps (m : SectionInsertion) (naming : NamingStrategy) (hd : ∀ vl, ¬doomed vl) :
    Traced tight doomed (m.steps naming) s fun _ _ => True := by
  refine Traced.of_coherent fun hs => ?_
  refine Traced.ite (fun _ => Traced.refuse_bind (by simp [Fault.kind])) fun _ => ?_
  refine Traced.ite (fun _ => Traced.refuse_bind (by simp [Fault.kind])) fun _ => ?_
  refine Traced.bind (traced_busbarSection _) ?_
  intro b s hx
  obtain ⟨rfl, hb⟩ := hx
  refine Traced.network_bind ?_
  dsimp only
  split
  next reference hp =>
    have hposition : b.position = some reference := (Prod.mk.inj hp).1
    refine Traced.bind (traced_findNeighbours _ _ _) ?_
    intro extensions s hx
    obtain ⟨rfl, hextensions⟩ := hx
    have hplaced : ∀ e ∈ extensions, s.network.Placed e.rail.id := by
      intro e he
      obtain ⟨⟨rail, i⟩, hx, he⟩ := List.mem_map.mp (hextensions e he)
      have heq : rail = e.rail := he
      subst heq
      split at hx
      · obtain ⟨⟨c, p⟩, hc, hc'⟩ := List.mem_map.mp hx
        have hrail : c.rail = e.rail := (Prod.mk.inj hc').1
        exact hrail ▸ hs.placed_of_mem (List.mem_filter.mp hc).1
      · have hrail : e.rail = b.rail := (Prod.mk.inj (List.mem_singleton.mp hx)).1
        have hid : b.id = m.busbarSection := hs.connectable_id _ (.busbarSection b) hb
        exact ⟨b, reference, by rwa [hrail, BusbarSection.rail, hid], hposition⟩
    split
    · exact Traced.bind (traced_shiftSections _ _) fun _ t hst =>
        m.traced_insertSections naming hd _ _ fun e he => hst _ (hplaced e he)
    · exact m.traced_insertSections naming hd _ _ hplaced
  next => exact Traced.refuse (by simp [Fault.kind])

end SectionInsertion

end Switchyard
