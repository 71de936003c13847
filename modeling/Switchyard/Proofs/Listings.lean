import Switchyard.Listing
import Switchyard.Proofs.BayRails

namespace Switchyard

open Std Network

/-- The insides are the same but for the ids of their switches. -/
inductive InsideListing.Alike : InsideListing → InsideListing → Prop
  | nodeBreaker {nodes : List Node} {terminals : List (Node × Attachment)}
    {switches switches' : List Switch} {connections : List (Node × Node)}
    (h : (switches.map (·.unnamed)).Perm (switches'.map (·.unnamed))) :
    Alike (.nodeBreaker nodes terminals switches connections)
      (.nodeBreaker nodes terminals switches' connections)
  | busBreaker (buses : List Bus) (switches : List BusSwitch) :
    Alike (.busBreaker buses switches) (.busBreaker buses switches)

/-- The voltage levels are the same but for the ids of their switches. -/
structure VoltageLevelListing.Alike (v u : VoltageLevelListing) : Prop where
  id : v.id = u.id
  name : v.name = u.name
  substation : v.substation = u.substation
  nominalV : v.nominalV = u.nominalV
  kind : v.kind = u.kind
  fictitious : v.fictitious = u.fictitious
  inside : v.inside.Alike u.inside

/-- The branches have the same id, kind and terminals. -/
def Branch.SameEnds (a b : Branch) : Prop :=
  a.id = b.id ∧ a.kind = b.kind ∧ a.terminal1 = b.terminal1 ∧ a.terminal2 = b.terminal2

/-- The networks are the same but for the ids of their switches and for the
parameters, the limits, the names and the positions of some branches. -/
structure Listing.Alike (branches : List String) (a b : Listing) : Prop where
  substations : a.substations = b.substations
  voltageLevels : List.Forall₂ VoltageLevelListing.Alike a.voltageLevels b.voltageLevels
  busbarSections : a.busbarSections = b.busbarSections
  injections : a.injections = b.injections
  branches : List.Forall₂ (fun x y => x = y ∨ x.id ∈ branches ∧ x.SameEnds y) a.branches b.branches
  transformers : a.transformers = b.transformers

variable {S S' : Set Switch} {T : Set (Node × Attachment)} {C C' : Set Connectable}
  {n m k : Network}

theorem Topology.Augmented.kind_eq {t u : Topology} (h : Topology.Augmented S T t u) :
    u.kind = t.kind := by
  cases h <;> rfl

/-- One inside with the same switches and terminals besides, twice. -/
theorem Topology.Augmented.listing_eq {t u v : Topology} (hu : Topology.Augmented S T t u)
    (hv : Topology.Augmented S T t v) : u.listing = v.listing := by
  cases hu with
  | layout l =>
    cases hv
    rfl
  | wiring _ _ hu =>
    cases hv with
    | wiring _ _ hv =>
      rw [listing, listing, hu.nodes_eq hv fun _ => Iff.rfl, hu.terminals_eq hv.toCarries,
        hu.switches_eq hv.toCarries, hu.connections_eq, hv.connections_eq]

theorem Wiring.Carries.switches_perm {w w' : Wiring} (h : w.Carries S T w') (hw : w.Sound)
    (hw' : w'.Sound) {xs : List Switch} (hnodup : xs.Nodup) (hxs : ∀ s, s ∈ xs ↔ s ∈ S) :
    w'.switches.values.Perm (w.switches.values ++ xs) := by
  have hvalues : ∀ {u : Wiring}, u.Sound → u.switches.values.Nodup := fun hu =>
    nodup_values (·.id) fun id s hs => (hu.switch_edge id s hs).1
  have hapart : w.switches.values.Disjoint xs := by
    intro s hs hx
    obtain ⟨id, hs⟩ := mem_values_iff.mp hs
    have hid := (hw.switch_edge id s hs).1
    subst hid
    exact (h.switch_new s ((hxs s).mp hx)).2 (mem_iff_exists_getElem?.mpr ⟨s, hs⟩)
  refine (List.perm_ext_iff_of_nodup (hvalues hw') ((hvalues hw).append hnodup hapart)).mpr ?_
  intro s
  rw [List.mem_append, mem_values_iff, mem_values_iff, hxs]
  simp only [h.getElem?_switches]
  grind

/-- One inside with switches besides that differ in their ids only. -/
theorem Topology.Augmented.listing_alike {t u v : Topology} (hu : Topology.Augmented S T t u)
    (hv : Topology.Augmented S' T t v) {xs ys : List Switch} (hxs : ∀ s, s ∈ xs ↔ s ∈ S)
    (hys : ∀ s, s ∈ ys ↔ s ∈ S') (hx : xs.Nodup) (hy : ys.Nodup)
    (hsame : xs.map (·.unnamed) = ys.map (·.unnamed)) : u.listing.Alike v.listing := by
  have hmeets : ∀ {as bs : List Switch}, as.map (·.unnamed) = bs.map (·.unnamed) →
      ∀ node, (∃ s ∈ as, s.Meets node) → ∃ s ∈ bs, s.Meets node := by
    rintro as bs he node ⟨s, hs, hm⟩
    have hs' : s.unnamed ∈ bs.map (·.unnamed) := he ▸ List.mem_map_of_mem hs
    obtain ⟨r, hr, hrs⟩ := List.mem_map.mp hs'
    refine ⟨r, hr, Switch.meets_iff.mpr ?_⟩
    have h1 : r.unnamed.node1 = s.unnamed.node1 := by rw [hrs]
    have h2 : r.unnamed.node2 = s.unnamed.node2 := by rw [hrs]
    dsimp only [Switch.unnamed] at h1 h2
    rw [h1, h2]
    exact Switch.meets_iff.mp hm
  cases hu with
  | layout l =>
    cases hv
    exact .busBreaker _ _
  | wiring hw hu' hu =>
    cases hv with
    | wiring _ hv' hv =>
      have hnodes : ∀ node, (∃ s ∈ S, s.Meets node) ↔ ∃ s ∈ S', s.Meets node := by
        intro node
        simp only [← hxs, ← hys]
        exact ⟨hmeets hsame node, hmeets hsame.symm node⟩
      have hperm := (hu.switches_perm hw hu' hx hxs).map (·.unnamed)
      have hperm' := (hv.switches_perm hw hv' hy hys).map (·.unnamed)
      rw [List.map_append] at hperm hperm'
      rw [listing, listing, hu.nodes_eq hv hnodes, hu.terminals_eq hv.toCarries,
        hu.connections_eq, hv.connections_eq]
      exact .nodeBreaker (hperm.trans (hsame ▸ hperm'.symm))

theorem VoltageLevel.listing_congr {v u : VoltageLevel} (hs : v.shell = u.shell)
    (hkind : v.topology.kind = u.topology.kind)
    (hlisting : v.topology.listing = u.topology.listing) : v.listing = u.listing := by
  cases v
  cases u
  simp_all [listing, shell]

namespace Network.Extended

/-- Voltage levels of two networks that extend one have the same shells, and
their insides extend one inside. -/
theorem forall₂_voltageLevels (h : Extended ∅ S C n m) (h' : Extended ∅ S' C' n k) :
    List.Forall₂ (fun v u => v.shell = u.shell ∧ ∃ t,
        Topology.Augmented (switchesAt S v.id) (terminalsAt (attachments C) v.id) t v.topology ∧
        Topology.Augmented (switchesAt S' v.id) (terminalsAt (attachments C') v.id) t u.topology)
      m.voltageLevels.values k.voltageLevels.values := by
  refine forall₂_values fun x => ?_
  have hm := h.shell x
  have hk := h'.shell x
  cases hn : n.voltageLevels[x]? with
  | none =>
    rw [shell?, shell?, hn, Option.map_none, Option.map_eq_none_iff] at hm hk
    rw [hm, hk]
    exact .none
  | some o =>
    have ht : n.inside? x = some o.topology := inside?_eq_some_iff.mpr ⟨o, hn, rfl⟩
    rw [shell?, shell?, hn, Option.map_some] at hm hk
    obtain ⟨v, hv, hvs⟩ := Option.map_eq_some_iff.mp hm
    obtain ⟨u, hu, hus⟩ := Option.map_eq_some_iff.mp hk
    obtain ⟨tv, htv, hav⟩ := h.inside x (Set.notMem_empty x) _ ht
    obtain ⟨tu, htu, hau⟩ := h'.inside x (Set.notMem_empty x) _ ht
    have hid := h.coherent.voltageLevel_id x v hv
    subst hid
    rw [inside?, hv, Option.map_some] at htv
    rw [inside?, hu, Option.map_some] at htu
    cases htv
    cases htu
    rw [hv, hu]
    exact .some ⟨hvs.trans hus.symm, _, hav, hau⟩

theorem substations_eq (h : Extended ∅ S C n m) (h' : Extended ∅ S' C' n k) :
    m.substations = k.substations :=
  h.substations.trans h'.substations.symm

theorem injections_eq (h : Extended ∅ S C n m) (hC : ∀ i, .injection i ∉ C) :
    m.injections = n.injections := by
  apply ExtTreeMap.ext_getElem?
  intro id
  apply Option.ext
  intro i
  exact h.keeps_iff_of_not_mem (hC i)

theorem transformers_eq (h : Extended ∅ S C n m) (hC : ∀ t, .transformer t ∉ C) :
    m.transformers = n.transformers := by
  apply ExtTreeMap.ext_getElem?
  intro id
  apply Option.ext
  intro t
  exact h.keeps_iff_of_not_mem (hC t)

theorem voltageLevel_listings_eq (h : Extended ∅ S C n m) (h' : Extended ∅ S C' n k)
    (hC : attachments C = attachments C') :
    m.voltageLevels.values.map (·.listing) = k.voltageLevels.values.map (·.listing) := by
  have heach := h.forall₂_voltageLevels h'
  rw [← hC] at heach
  rw [← List.forall₂_eq_eq_eq, List.forall₂_map_left_iff, List.forall₂_map_right_iff]
  refine heach.imp ?_
  rintro v u ⟨hs, t, hv, hu⟩
  exact VoltageLevel.listing_congr hs (hv.kind_eq.trans hu.kind_eq.symm) (hv.listing_eq hu)

theorem listing_eq (h : Extended ∅ ∅ ∅ n m) : m.listing = n.listing := by
  have hbranches : m.branches = n.branches := by
    apply ExtTreeMap.ext_getElem?
    intro id
    apply Option.ext
    intro b
    exact h.keeps_iff_of_not_mem (Set.notMem_empty (Connectable.branch b))
  have hlevels := h.voltageLevel_listings_eq (Extended.refl h.base) rfl
  rw [listing, listing, h.substations, hlevels, h.busbarSections_eq,
    h.injections_eq fun _ => Set.notMem_empty _, hbranches,
    h.transformers_eq fun _ => Set.notMem_empty _]

section Rebuilt

variable {a b : Branch} {f : Branch → Branch}

/-- With one branch besides, that one has its id alone. -/
theorem getElem?_branches (h : Extended ∅ ∅ {.branch a} n m) {x : String} {d : Branch} :
    m.branches[x]? = some d ↔ n.branches[x]? = some d ∨ a.id = x ∧ d = a := by
  refine (h.keeps_iff x (.branch d)).trans ?_
  simp only [Set.mem_singleton_iff, Connectable.branch.injEq, Connectable.id, Keeps]
  grind

theorem branches_of_rebuilt (h : Extended ∅ ∅ {.branch a} n m)
    (h' : Extended ∅ ∅ {.branch b} n k) (hid : b.id = a.id) (hf : f a = b) :
    k.branches = m.branches.map fun _ x => if x.id = a.id then f x else x := by
  apply ExtTreeMap.ext_getElem?
  intro x
  apply Option.ext
  intro c
  have hold : ∀ d : Branch, n.branches[x]? = some d → d.id ≠ a.id := by
    intro d hd he
    have hx : d.id = x := h.base.connectable_id x (.branch d) hd
    have hkept : n.Keeps a.id (.branch d) := by
      rw [← he, hx]
      exact hd
    exact h.fresh (.branch a) rfl (.branch d) hkept
  rw [h'.getElem?_branches, hid, ExtTreeMap.getElem?_map, Option.map_eq_some_iff]
  simp only [h.getElem?_branches]
  constructor
  · rintro (hc | ⟨rfl, rfl⟩)
    · exact ⟨c, Or.inl hc, if_neg (hold c hc)⟩
    · exact ⟨a, Or.inr ⟨rfl, rfl⟩, (if_pos rfl).trans hf⟩
  · rintro ⟨d, hd | ⟨rfl, rfl⟩, rfl⟩
    · rw [if_neg (hold d hd)]
      exact Or.inl hd
    · rw [if_pos rfl]
      exact Or.inr ⟨rfl, hf⟩

/-- A branch in place of one with the same terminals is all that tells two
networks apart. -/
theorem listing_of_rebuilt (h : Extended ∅ ∅ {.branch a} n m)
    (h' : Extended ∅ ∅ {.branch b} n k) (hid : b.id = a.id) (h1 : b.terminal1 = a.terminal1)
    (h2 : b.terminal2 = a.terminal2) (hf : f a = b) :
    k.listing = { m.listing with
      branches := m.listing.branches.map fun x => if x.id = a.id then f x else x } := by
  have hattach : attachments {.branch b} = attachments {.branch a} := by
    have hends : (Connectable.branch b).terminals = (Connectable.branch a).terminals := by
      simp only [Connectable.terminals, h1, h2]
    rw [attachments_singleton, attachments_singleton, hends]
    exact congrArg (sidesOf · _) hid
  have hinjections : k.injections = m.injections := by
    rw [h.injections_eq (by simp), h'.injections_eq (by simp)]
  have htransformers : k.transformers = m.transformers := by
    rw [h.transformers_eq (by simp), h'.transformers_eq (by simp)]
  have hbusbars : k.busbarSections = m.busbarSections := by
    rw [h.busbarSections_eq, h'.busbarSections_eq]
  rw [listing, listing, h'.substations_eq h, h'.voltageLevel_listings_eq h hattach, hbusbars,
    hinjections, htransformers, h.branches_of_rebuilt h' hid hf, values_map]

end Rebuilt

end Network.Extended

end Switchyard
