import Switchyard.Proofs.Listings

namespace Switchyard

open Std Network

variable {n m k : Network} {vl : String}

namespace BayPlan

theorem Railed.nodup_switches {p : BayPlan} (h : p.Railed n) (hn : n.Coherent False) :
    p.switches.Nodup := by
  refine List.nodup_cons.mpr ⟨fun hm => ?_, h.nodup.map_on fun r hr r' hr' he => ?_⟩
  · obtain ⟨r, -, he⟩ := List.mem_map.mp hm
    have hkind : SwitchKind.disconnector = .breaker := congrArg Switch.kind he
    cases hkind
  · have hnode : r.node = r'.node := congrArg Switch.node2 he
    exact hn.rail_eq_of_node (h.rails r hr) (h.rails r' hr') hnode

/-- Bays that are apart have different switches, ids aside. -/
theorem nodup_flatMap_switches {plans : List BayPlan} (hn : n.Coherent False)
    (hrailed : ∀ p ∈ plans, p.Railed n) (hapart : plans.Pairwise Apart) :
    (plans.flatMap (·.switches)).Nodup :=
  List.nodup_flatMap.mpr
    ⟨fun p hp => (hrailed p hp).nodup_switches hn, hapart.imp fun h => h.disjoint⟩

end BayPlan

/-- The switches of bays in one voltage level. -/
def laidIn (bays : List LaidBay) (vl : String) : List Switch :=
  (bays.flatMap (·.switches)).filter (·.voltageLevel == vl)

theorem mem_laidIn {bays : List LaidBay} {s : Switch} :
    s ∈ laidIn bays vl ↔ s ∈ switchesAt (laid bays) vl := by
  simp only [laidIn, switchesAt, laid, List.mem_filter, List.mem_flatMap, beq_iff_eq,
    Set.mem_ofPred_eq]

/-- But for their ids, the switches depend on the plans only. -/
theorem laidIn_unnamed (bays : List LaidBay) (vl : String) :
    (laidIn bays vl).map (·.unnamed) =
      ((bays.map (·.toBayPlan)).flatMap (·.switches)).filter (·.voltageLevel == vl) := by
  have hall : (bays.flatMap (·.switches)).map (·.unnamed) =
      (bays.map (·.toBayPlan)).flatMap (·.switches) := by
    rw [List.map_flatMap, List.flatMap_map]
    exact List.flatMap_congr fun b _ => b.switches_unnamed
  rw [laidIn, ← hall, List.filter_map]
  rfl

theorem attachments_branches {B B' : Set Branch} (hB : ∀ b ∈ B, ∃ b' ∈ B', b.SameEnds b')
    (hB' : ∀ b' ∈ B', ∃ b ∈ B, b.SameEnds b') :
    attachments (Connectable.branch '' B) = attachments (Connectable.branch '' B') := by
  have hterminals : ∀ {b b' : Branch}, b.SameEnds b' →
      (Connectable.branch b).id = (Connectable.branch b').id ∧
        (Connectable.branch b).terminals = (Connectable.branch b').terminals := by
    rintro b b' ⟨hid, -, h1, h2⟩
    exact ⟨hid, by rw [Connectable.terminals, Connectable.terminals, h1, h2]⟩
  ext x
  constructor
  · rintro ⟨_, ⟨b, hb, rfl⟩, hx⟩
    obtain ⟨b', hb', hsame⟩ := hB b hb
    obtain ⟨hid, hts⟩ := hterminals hsame
    exact ⟨_, ⟨b', hb', rfl⟩, hid ▸ hts ▸ hx⟩
  · rintro ⟨_, ⟨b', hb', rfl⟩, hx⟩
    obtain ⟨b, hb, hsame⟩ := hB' b' hb'
    obtain ⟨hid, hts⟩ := hterminals hsame
    exact ⟨_, ⟨b, hb, rfl⟩, hid ▸ hts ▸ hx⟩

namespace Network.Extended

variable {S S' : Set Switch} {B B' : Set Branch} {bays bays' : List LaidBay}

/-- Branches with the same ends besides are all that tells the branches apart. -/
theorem forall₂_branches (h : Extended ∅ S (Connectable.branch '' B) n m)
    (h' : Extended ∅ S' (Connectable.branch '' B') n k)
    (hB : ∀ b ∈ B, ∃ b' ∈ B', b.SameEnds b') (hB' : ∀ b' ∈ B', ∃ b ∈ B, b.SameEnds b') :
    List.Forall₂ (fun x y => x = y ∨ x ∈ B ∧ x.SameEnds y) m.branches.values
      k.branches.values := by
  have hm : ∀ x d, m.branches[x]? = some d ↔ n.branches[x]? = some d ∨ d.id = x ∧ d ∈ B := by
    intro x d
    refine (h.keeps_iff x (.branch d)).trans ?_
    simp [Connectable.id, Keeps]
  have hk : ∀ x d, k.branches[x]? = some d ↔ n.branches[x]? = some d ∨ d.id = x ∧ d ∈ B' := by
    intro x d
    refine (h'.keeps_iff x (.branch d)).trans ?_
    simp [Connectable.id, Keeps]
  refine forall₂_values fun x => ?_
  cases hx : m.branches[x]? with
  | some d =>
    rcases (hm x d).mp hx with hold | ⟨rfl, hd⟩
    · rw [(hk x d).mpr (Or.inl hold)]
      exact .some (Or.inl rfl)
    · obtain ⟨d', hd', hsame⟩ := hB d hd
      rw [(hk d.id d').mpr (Or.inr ⟨hsame.1.symm, hd'⟩)]
      exact .some (Or.inr ⟨hd, hsame⟩)
  | none =>
    have hnone : k.branches[x]? = none := by
      rw [Option.eq_none_iff_forall_ne_some]
      intro d' hd'
      rcases (hk x d').mp hd' with hold | ⟨rfl, hin⟩
      · rw [(hm x d').mpr (Or.inl hold)] at hx
        cases hx
      · obtain ⟨d, hd, hsame⟩ := hB' d' hin
        rw [(hm d'.id d).mpr (Or.inr ⟨hsame.1, hd⟩)] at hx
        cases hx
    rw [hnone]
    exact .none

/-- Bays laid to the same plans, and branches with the same ends, make alike
networks of one. -/
theorem listing_alike (h : Extended ∅ (laid bays) (Connectable.branch '' B) n m)
    (h' : Extended ∅ (laid bays') (Connectable.branch '' B') n k)
    (hB : ∀ b ∈ B, ∃ b' ∈ B', b.SameEnds b') (hB' : ∀ b' ∈ B', ∃ b ∈ B, b.SameEnds b')
    {ids : List String} (hids : ∀ b ∈ B, b.id ∈ ids) {plans : List BayPlan}
    (hplans : bays.map (·.toBayPlan) = plans) (hplans' : bays'.map (·.toBayPlan) = plans)
    (hrailed : ∀ p ∈ plans, p.Railed n) (hapart : plans.Pairwise BayPlan.Apart) :
    Listing.Alike ids m.listing k.listing := by
  have hplanned : ∀ {bs : List LaidBay}, bs.map (·.toBayPlan) = plans → ∀ vl,
      (laidIn bs vl).Nodup := by
    intro bs hbs vl
    have hnodup := (BayPlan.nodup_flatMap_switches h.base hrailed hapart).filter
      (·.voltageLevel == vl)
    rw [← hbs, ← laidIn_unnamed] at hnodup
    exact hnodup.of_map _
  have hunnamed : ∀ vl, (laidIn bays vl).map (·.unnamed) = (laidIn bays' vl).map (·.unnamed) := by
    intro vl
    rw [laidIn_unnamed, laidIn_unnamed, hplans, hplans']
  refine
    { substations := congrArg ExtTreeMap.values (h.substations_eq h')
      voltageLevels := ?_
      busbarSections := ?_
      injections := ?_
      branches := ?_
      transformers := ?_ }
  · have heach := h.forall₂_voltageLevels h'
    rw [← attachments_branches hB hB'] at heach
    rw [listing, listing, List.forall₂_map_left_iff, List.forall₂_map_right_iff]
    refine heach.imp ?_
    rintro v u ⟨hs, t, hv, hu⟩
    have hkind : v.topology.kind = u.topology.kind := hv.kind_eq.trans hu.kind_eq.symm
    have hinside := hv.listing_alike hu (fun s => mem_laidIn) (fun s => mem_laidIn)
      (hplanned hplans v.id) (hplanned hplans' v.id) (hunnamed v.id)
    exact ⟨(congrArg VoltageLevel.id hs :), (congrArg VoltageLevel.name hs :),
      (congrArg VoltageLevel.substation hs :), (congrArg VoltageLevel.nominalV hs :), hkind,
      (congrArg VoltageLevel.fictitious hs :), hinside⟩
  · rw [listing, listing, h.busbarSections_eq, h'.busbarSections_eq]
  · rw [listing, listing, h.injections_eq (by simp), h'.injections_eq (by simp)]
  · refine (h.forall₂_branches h' hB hB').imp fun x y hxy => ?_
    exact hxy.imp_right (And.imp_left (hids x))
  · rw [listing, listing, h.transformers_eq (by simp), h'.transformers_eq (by simp)]

end Network.Extended

end Switchyard
