import Switchyard.Proofs.Inside

namespace Switchyard

open Std Network

variable [Numbering] {tight : Prop} {n : Network}

def Network.withSubstation (n : Network) (s : Substation) : Network :=
  { n.register s.id ⟨.substation, none⟩ with substations := n.substations.insert s.id s }

def Network.withLevel (n : Network) (v : VoltageLevel) : Network :=
  { n.register v.id ⟨.voltageLevel, none⟩ with voltageLevels := n.voltageLevels.insert v.id v }

theorem Network.keeps_withSubstation {s : Substation} {x : String} {c : Connectable} :
    (n.withSubstation s).Keeps x c ↔ n.Keeps x c := by
  cases c <;> rfl

theorem Network.inside?_withSubstation (n : Network) (s : Substation) (vl : String) :
    (n.withSubstation s).inside? vl = n.inside? vl :=
  rfl

theorem Network.stores_withSubstation {s : Substation} {x : String} {e : IndexEntry} :
    (n.withSubstation s).Stores x e ↔
      n.Stores x e ∨ x = s.id ∧ e = ⟨.substation, none⟩ := by
  have hsubstations : (n.withSubstation s).substations = n.substations.insert s.id s := rfl
  have hlevels : (n.withSubstation s).voltageLevels = n.voltageLevels := rfl
  simp only [stores_iff, hsubstations, hlevels, inside?_withSubstation, keeps_withSubstation,
    ExtTreeMap.mem_insert, Std.compare_eq_iff_eq]
  grind

theorem Network.Coherent.withSubstation (h : n.Coherent tight) {s : Substation}
    (hid : s.id ∉ n.index) :
    n.Gains tight s.id ⟨.substation, none⟩ (n.withSubstation s) := by
  refine ⟨?_, hid, rfl, fun x c hc => keeps_withSubstation.mpr hc⟩
  exact
    { index_iff := index_iff_insert h.index_iff hid fun _ _ => stores_withSubstation
      inside := h.inside
      holdsAt_iff := by
        simpa only [HoldsAt, Attaches, inside?_withSubstation, keeps_withSubstation] using
          h.holdsAt_iff
      hasBus := by
        simpa only [HasBus, Attaches, inside?_withSubstation, keeps_withSubstation] using h.hasBus
      substation_mem := fun vl v x hv hx =>
        ExtTreeMap.mem_insert.mpr (Or.inr (h.substation_mem vl v x hv hx))
      substation_id := by
        intro x t ht
        rw [Network.withSubstation, ExtTreeMap.getElem?_insert] at ht
        split at ht
        next he => exact Option.some.inj ht ▸ LawfulEqCmp.eq_of_compare he
        next => exact h.substation_id x t ht
      voltageLevel_id := h.voltageLevel_id
      connectable_id := fun x c hc => h.connectable_id x c (keeps_withSubstation.mp hc) }

theorem Substation.create_cases (h : n.Coherent tight) (s : Substation) :
    (∃ m, s.create n = .ok s.id m ∧ n.Gains tight s.id ⟨.substation, none⟩ m) ∨
      s.create.Refuses n := by
  unfold create Edit.Refuses
  simp only [bind_apply, modify_apply, pure_apply]
  obtain ⟨id, hid, hsame, hclaim⟩ | ⟨f, hclaim, hf⟩ :=
    Edit.claimId_cases n s.id false .substation none
  · have heq := hsame rfl
    subst heq
    rw [hclaim]
    exact Or.inl ⟨n.withSubstation s, rfl, h.withSubstation hid⟩
  · exact Or.inr ⟨f, by rw [hclaim], hf⟩

theorem Topology.firm_empty (tight : Prop) (vl : String) (kind : TopologyKind) :
    (Topology.empty kind).Firm tight vl := by
  cases kind with
  | nodeBreaker =>
    refine ⟨⟨.empty, fun _ node hn => ?_⟩, fun id s hs => ?_⟩
    · simp at hn
    · simp at hs
  | busBreaker => constructor <;> simp

namespace Network

theorem getElem?_voltageLevels_withLevel {v w : VoltageLevel} {x : String} :
    (n.withLevel v).voltageLevels[x]? = some w ↔
      v.id = x ∧ v = w ∨ v.id ≠ x ∧ n.voltageLevels[x]? = some w := by
  simp only [withLevel, ExtTreeMap.getElem?_insert, Std.compare_eq_iff_eq]
  grind

theorem keeps_withLevel {v : VoltageLevel} {x : String} {c : Connectable} :
    (n.withLevel v).Keeps x c ↔ n.Keeps x c := by
  cases c <;> rfl

theorem attaches_withLevel {v : VoltageLevel} {a : Attachment} {t : Terminal} :
    (n.withLevel v).Attaches a t ↔ n.Attaches a t := by
  simp only [Attaches, keeps_withLevel]

theorem inside?_withLevel (n : Network) (v : VoltageLevel) (x : String) :
    (n.withLevel v).inside? x = if v.id = x then some v.topology else n.inside? x := by
  simp only [inside?, withLevel, ExtTreeMap.getElem?_insert, Std.compare_eq_iff_eq]
  split <;> rfl

theorem Coherent.inside?_eq_none (h : n.Coherent tight) {id : String} (hid : id ∉ n.index) :
    n.inside? id = none := by
  rw [inside?, ExtTreeMap.getElem?_eq_none, Option.map_none]
  exact fun hm => h.stores_of_index hid _ (.voltageLevel hm)

section WithLevel

variable {v : VoltageLevel} {kind : TopologyKind} (h : n.Coherent tight) (hid : v.id ∉ n.index)
  (ht : v.topology = .empty kind)

include h ht

theorem Coherent.firm_withLevel {x : String} {t : Topology}
    (hx : (n.withLevel v).inside? x = some t) : t.Firm tight x := by
  rw [inside?_withLevel, ht] at hx
  split at hx
  next => exact Option.some.inj hx ▸ Topology.firm_empty tight x kind
  next => exact h.inside x t hx

include hid

/-- Nothing lies inside the new voltage level. -/
theorem Coherent.stores_withLevel {x : String} {e : IndexEntry} :
    (n.withLevel v).Stores x e ↔
      n.Stores x e ∨ x = v.id ∧ e = ⟨.voltageLevel, none⟩ := by
  have hsubstations : (n.withLevel v).substations = n.substations := rfl
  have hlevels : (n.withLevel v).voltageLevels = n.voltageLevels.insert v.id v := rfl
  have hempty : ∀ y k, ¬(Topology.empty kind).Holds y k := by
    intro y k
    cases kind <;> simp [Topology.empty, Topology.Holds]
  have hnone := h.inside?_eq_none hid
  simp only [stores_iff, hsubstations, hlevels, inside?_withLevel, ht, keeps_withLevel,
    ExtTreeMap.mem_insert, Std.compare_eq_iff_eq]
  grind

theorem Coherent.holdsAt_withLevel {x : String} {node : Node} {a : Attachment} :
    (n.withLevel v).HoldsAt x node a ↔ n.HoldsAt x node a := by
  simp only [HoldsAt, inside?_withLevel, ht]
  split
  next he =>
    rw [← he, h.inside?_eq_none hid]
    cases kind <;> simp [Topology.empty]
  next => rfl

omit ht

theorem Coherent.hasBus_withLevel {x bus : String} (hb : n.HasBus x bus) :
    (n.withLevel v).HasBus x bus := by
  obtain ⟨l, hl, hb⟩ := hb
  refine ⟨l, ?_, hb⟩
  rw [inside?_withLevel, if_neg, hl]
  intro hx
  rw [← hx, h.inside?_eq_none hid] at hl
  cases hl

end WithLevel

/-- A voltage level with nothing inside enters the network under a new id. -/
theorem Coherent.withLevel (h : n.Coherent tight) {v : VoltageLevel}
    {kind : TopologyKind} (hid : v.id ∉ n.index) (ht : v.topology = .empty kind)
    (hs : ∀ s, v.substation = some s → s ∈ n.substations) :
    n.Gains tight v.id ⟨.voltageLevel, none⟩ (n.withLevel v) := by
  refine ⟨?_, hid, rfl, fun x c hc => keeps_withLevel.mpr hc⟩
  exact
    { index_iff := index_iff_insert h.index_iff hid fun _ _ => h.stores_withLevel hid ht
      inside := fun _ _ hx => h.firm_withLevel ht hx
      holdsAt_iff := fun x node a =>
        (h.holdsAt_withLevel hid ht).trans ((h.holdsAt_iff x node a).trans attaches_withLevel.symm)
      hasBus := fun a x bus ha =>
        h.hasBus_withLevel hid (h.hasBus a x bus (attaches_withLevel.mp ha))
      substation_mem := by
        intro x u s hu hus
        rcases getElem?_voltageLevels_withLevel.mp hu with ⟨-, rfl⟩ | ⟨-, hu⟩
        · exact hs s hus
        · exact h.substation_mem x u s hu hus
      substation_id := h.substation_id
      voltageLevel_id := by
        intro x u hu
        rcases getElem?_voltageLevels_withLevel.mp hu with ⟨hx, rfl⟩ | ⟨-, hu⟩
        · exact hx
        · exact h.voltageLevel_id x u hu
      connectable_id := fun x c hc => h.connectable_id x c (keeps_withLevel.mp hc) }

end Network

/-- The voltage level that a draft leads to. -/
def VoltageLevelDraft.voltageLevel (d : VoltageLevelDraft) : VoltageLevel :=
  { id := d.id, name := d.name, substation := d.substation, nominalV := d.nominalV,
    fictitious := d.fictitious, topology := .empty d.kind }

/-- With its substation there, a draft only claims its id and is stored. -/
theorem VoltageLevelDraft.create_eq (d : VoltageLevelDraft)
    (hs : ∀ s, d.substation = some s → s ∈ n.substations) :
    d.create n =
      match Edit.claimId d.id false .voltageLevel none n with
      | .ok id m =>
        .ok id { m with voltageLevels := m.voltageLevels.insert id { d.voltageLevel with id } }
      | .error f m => .error f m := by
  obtain ⟨id, kind, name, substation, nominalV, fictitious⟩ := d
  cases substation with
  | none =>
    simp only [create, bind_apply]
    cases Edit.claimId id false .voltageLevel none n <;> rfl
  | some s =>
    have hm : n.substations.contains s = true := hs s rfl
    simp only [create, bind_apply, get_apply, hm, Bool.not_true, Bool.false_eq_true, if_false]
    cases Edit.claimId id false .voltageLevel none n <;> rfl

theorem VoltageLevelDraft.create_cases (h : n.Coherent tight) (d : VoltageLevelDraft) :
    (∃ m, d.create n = .ok d.id m ∧ n.Gains tight d.id ⟨.voltageLevel, none⟩ m) ∨
      d.create.Refuses n := by
  by_cases hs : ∀ s, d.substation = some s → s ∈ n.substations
  · unfold Edit.Refuses
    rw [d.create_eq hs]
    obtain ⟨id, hid, hsame, hclaim⟩ | ⟨f, hclaim, hf⟩ :=
      Edit.claimId_cases n d.id false .voltageLevel none
    · have heq := hsame rfl
      subst heq
      rw [hclaim]
      have ht : d.voltageLevel.topology = .empty d.kind := rfl
      exact Or.inl ⟨n.withLevel d.voltageLevel, rfl, h.withLevel hid ht hs⟩
    · rw [hclaim]
      exact Or.inr ⟨f, rfl, hf⟩
  · obtain ⟨s, he, hs⟩ : ∃ s, d.substation = some s ∧ s ∉ n.substations := by
      simpa using hs
    have hm : n.substations.contains s = false := Bool.eq_false_iff.mpr hs
    refine Or.inr ⟨.substationNotFound s, ?_, by simp [Fault.kind]⟩
    simp only [create, he, bind_apply, get_apply, hm, Bool.not_false, if_true]
    rfl

end Switchyard
