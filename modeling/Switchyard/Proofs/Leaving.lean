import Switchyard.Proofs.Containers

namespace Switchyard

open Std

variable [Numbering]

namespace Network

variable {tight : Prop} {n m : Network}

/-- Takes a connectable out of its store. -/
def take (n : Network) (id : String) : Connectable → Network
  | .busbarSection _ => { n with busbarSections := n.busbarSections.erase id }
  | .injection _ => { n with injections := n.injections.erase id }
  | .branch _ => { n with branches := n.branches.erase id }
  | .transformer _ => { n with transformers := n.transformers.erase id }

def forget (n : Network) (id : String) : Network :=
  { n with index := n.index.erase id }

@[simp] theorem index_take (n : Network) (id : String) (c : Connectable) :
    (n.take id c).index = n.index := by
  cases c <;> rfl

@[simp] theorem voltageLevels_take (n : Network) (id : String) (c : Connectable) :
    (n.take id c).voltageLevels = n.voltageLevels := by
  cases c <;> rfl

@[simp] theorem substations_take (n : Network) (id : String) (c : Connectable) :
    (n.take id c).substations = n.substations := by
  cases c <;> rfl

@[simp] theorem inside?_take (n : Network) (id : String) (c : Connectable) (vl : String) :
    (n.take id c).inside? vl = n.inside? vl := by
  simp only [inside?, voltageLevels_take]

omit [Numbering] in
/-- The index loses the entry of the one thing that left. -/
theorem index_iff_erase {index : ExtTreeMap String IndexEntry} {id : String}
    {old new : String → IndexEntry → Prop} (hi : ∀ x e, index[x]? = some e ↔ old x e)
    (hn : ∀ x e, new x e ↔ old x e ∧ x ≠ id) (x : String) (e : IndexEntry) :
    (index.erase id)[x]? = some e ↔ new x e := by
  have hx := hi x e
  rw [hn, ExtTreeMap.getElem?_erase]
  simp only [Std.compare_eq_iff_eq]
  grind

theorem Coherent.keeps_take (h : n.Coherent tight) {id : String} {c : Connectable}
    (hc : n.Keeps id c) {x : String} {d : Connectable} :
    (n.take id c).Keeps x d ↔ n.Keeps x d ∧ x ≠ id := by
  have hone : n.Keeps x d → x = id → d = c := fun hd hx => h.keeps_unique (hx ▸ hd) hc
  cases c <;> cases d <;>
    simp only [take, Keeps, ExtTreeMap.getElem?_erase, Std.compare_eq_iff_eq,
      reduceCtorEq] at hone ⊢ <;>
    grind

theorem holdsAt_unique {vl : String} {node : Node} {a b : Attachment} (ha : n.HoldsAt vl node a)
    (hb : n.HoldsAt vl node b) : a = b := by
  obtain ⟨w, hw, ha⟩ := ha
  obtain ⟨w', hw', hb⟩ := hb
  have heq : w = w' := by simpa using hw.symm.trans hw'
  subst heq
  exact Option.some.inj (ha.symm.trans hb)

theorem keeps_forget {id x : String} {c : Connectable} :
    (n.forget id).Keeps x c ↔ n.Keeps x c :=
  keeps_reindex

section Take

variable {id : String} {c : Connectable} (h : n.Coherent tight) (hc : n.Keeps id c)
  (hr : Rewired tight ((n.take id c).forget id) m)

include hr

theorem Rewired.index_taken : m.index = n.index.erase id := by
  rw [hr.index_eq, forget, index_take]

theorem Rewired.substations_taken : m.substations = n.substations := by
  rw [hr.substations_eq, forget, substations_take]

theorem Rewired.shell?_taken (vl : String) : m.shell? vl = n.shell? vl := by
  rw [hr.shell, shell?, forget, voltageLevels_take, shell?]

theorem Rewired.inside_taken {vl : String} {u : Topology} (hu : m.inside? vl = some u) :
    ∃ t, n.inside? vl = some t ∧ t.Rewired tight u := by
  obtain ⟨t, ht, hr⟩ := hr.inside vl u hu
  exact ⟨t, (n.inside?_take id c vl).symm.trans ht, hr⟩

include h

theorem Coherent.hasBus_taken {a : Attachment} {vl bus : String}
    (ha : n.Attaches a (.atBus vl bus)) : m.HasBus vl bus := by
  obtain ⟨l, hl, hb⟩ := h.hasBus a vl bus ha
  exact hr.hasBus_iff.mpr ⟨l, (n.inside?_take id c vl).trans hl, hb⟩

include hc

theorem Coherent.keeps_taken {x : String} {d : Connectable} :
    m.Keeps x d ↔ n.Keeps x d ∧ x ≠ id :=
  (hr.keeps_iff.trans keeps_forget).trans (h.keeps_take hc)

theorem Coherent.attaches_taken {a : Attachment} {t : Terminal} :
    m.Attaches a t ↔ n.Attaches a t ∧ a.connectable ≠ id := by
  simp only [Attaches, h.keeps_taken hc hr]
  grind

theorem Coherent.stores_taken {x : String} {e : IndexEntry} :
    m.Stores x e ↔ n.Stores x e ∧ x ≠ id := by
  obtain ⟨hsub, hvl, hin⟩ := h.not_other hc
  have hinside : ∀ vl, ((n.take id c).forget id).inside? vl = n.inside? vl := n.inside?_take id c
  rw [hr.stores_iff]
  simp only [stores_iff, keeps_forget, h.keeps_take hc, hinside]
  simp only [forget, substations_take, voltageLevels_take]
  grind

theorem Coherent.holdsAt_iff_taken
    (hh : ∀ vl node a, m.HoldsAt vl node a ↔
      n.HoldsAt vl node a ∧ .atNode vl node ∉ c.terminals.map (·.2))
    (vl : String) (node : Node) (a : Attachment) :
    m.HoldsAt vl node a ↔ m.Attaches a (.atNode vl node) := by
  rw [hh, h.attaches_taken hc hr, h.holdsAt_iff]
  refine and_congr_right fun ha => not_congr ⟨fun hm => ?_, fun he => ?_⟩
  · obtain ⟨⟨side, t⟩, hs, rfl⟩ := List.mem_map.mp hm
    have hb : n.Attaches ⟨id, side⟩ (.atNode vl node) := ⟨c, hc, hs⟩
    rw [← h.holdsAt_iff] at ha hb
    exact congrArg Attachment.connectable (holdsAt_unique ha hb)
  · obtain ⟨d, hd, hs⟩ := ha
    have heq := h.keeps_unique (he ▸ hd) hc
    subst heq
    exact List.mem_map.mpr ⟨_, hs, rfl⟩

end Take

/-- A connectable leaves the network with its sides. -/
theorem Coherent.take (h : n.Coherent tight) {id : String} {c : Connectable} (hc : n.Keeps id c)
    (hr : Rewired tight ((n.take id c).forget id) m)
    (hh : ∀ vl node a, m.HoldsAt vl node a ↔
      n.HoldsAt vl node a ∧ .atNode vl node ∉ c.terminals.map (·.2)) :
    m.Coherent tight ∧ m.index = n.index.erase id ∧
      ∀ x d, m.Keeps x d ↔ n.Keeps x d ∧ x ≠ id := by
  refine ⟨?_, hr.index_taken, fun x d => h.keeps_taken hc hr⟩
  exact
    { index_iff := by
        rw [hr.index_taken]
        exact index_iff_erase h.index_iff fun _ _ => h.stores_taken hc hr
      inside := by
        intro vl u hu
        obtain ⟨t, ht, hr⟩ := hr.inside_taken hu
        exact hr.firm (h.inside vl t ht)
      holdsAt_iff := h.holdsAt_iff_taken hc hr hh
      hasBus := fun _ _ _ ha => h.hasBus_taken hr ((h.attaches_taken hc hr).mp ha).1
      substation_mem := h.substation_mem_of_shell hr.shell?_taken hr.substations_taken
      substation_id := hr.substations_taken ▸ h.substation_id
      voltageLevel_id := h.voltageLevel_id_of_shell hr.shell?_taken
      connectable_id := fun x d hd => h.connectable_id x d ((h.keeps_taken hc hr).mp hd).1 }

end Network

end Switchyard
