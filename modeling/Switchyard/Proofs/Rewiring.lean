import Switchyard.Proofs.Coherence

namespace Switchyard

open Std

variable [Numbering]

/-- The wiring of a voltage level may change, but not the switches in it. -/
inductive Topology.Rewired (tight : Prop) : Topology → Topology → Prop
  | refl (t : Topology) : Topology.Rewired tight t t
  | wiring {w w' : Wiring} (hf : w'.Firm tight) (hs : w'.switches = w.switches) :
    Topology.Rewired tight (.nodeBreaker w) (.nodeBreaker w')

namespace Topology.Rewired

variable {tight : Prop} {t u v : Topology}

theorem trans (h : Rewired tight t u) (k : Rewired tight u v) : Rewired tight t v := by
  cases h with
  | refl => exact k
  | wiring hf hs =>
    cases k with
    | refl => exact .wiring hf hs
    | wiring kf ks => exact .wiring kf (ks.trans hs)

theorem holds_iff (h : Rewired tight t u) {id : String} {kind : ObjectKind} :
    u.Holds id kind ↔ t.Holds id kind := by
  cases h with
  | refl => exact Iff.rfl
  | wiring hf hs => simp only [Holds, hs]

theorem firm (h : Rewired tight t u) {vl : String} (ht : t.Firm tight vl) : u.Firm tight vl := by
  cases h with
  | refl => exact ht
  | wiring hf hs => exact ⟨hf, by simpa only [hs] using ht.2⟩

end Topology.Rewired

namespace Network

variable {tight : Prop} {n m : Network}

/-- The networks differ in the wirings of voltage levels only, and not in their
switches. -/
structure Rewired (tight : Prop) (n m : Network) : Prop where
  rest : m = { n with voltageLevels := m.voltageLevels }
  shell : ∀ vl, m.shell? vl = n.shell? vl
  inside : ∀ vl u, m.inside? vl = some u → ∃ t, n.inside? vl = some t ∧ t.Rewired tight u

theorem mem_voltageLevels_of_shell (h : ∀ vl, m.shell? vl = n.shell? vl) {vl : String} :
    vl ∈ m.voltageLevels ↔ vl ∈ n.voltageLevels := by
  rw [← shell?_isSome_iff, ← shell?_isSome_iff, h]

theorem substation_of_shell (h : ∀ vl, m.shell? vl = n.shell? vl) {vl : String} {v : VoltageLevel}
    (hv : m.voltageLevels[vl]? = some v) :
    ∃ u, n.voltageLevels[vl]? = some u ∧ u.id = v.id ∧ u.substation = v.substation := by
  have hs := h vl
  simp only [shell?, hv, Option.map_some] at hs
  obtain ⟨u, hu, he⟩ := Option.map_eq_some_iff.mp hs.symm
  have hid : u.shell.id = v.shell.id := by rw [he]
  have hsub : u.shell.substation = v.shell.substation := by rw [he]
  exact ⟨u, hu, hid, hsub⟩

theorem Coherent.substation_mem_of_shell (h : n.Coherent tight)
    (hshell : ∀ vl, m.shell? vl = n.shell? vl) (hs : m.substations = n.substations) (vl : String)
    (v : VoltageLevel) (s : String) (hv : m.voltageLevels[vl]? = some v)
    (hvs : v.substation = some s) : s ∈ m.substations := by
  obtain ⟨u, hu, -, he⟩ := substation_of_shell hshell hv
  rw [hs]
  exact h.substation_mem vl u s hu (he.trans hvs)

theorem Coherent.voltageLevel_id_of_shell (h : n.Coherent tight)
    (hshell : ∀ vl, m.shell? vl = n.shell? vl) (vl : String) (v : VoltageLevel)
    (hv : m.voltageLevels[vl]? = some v) : v.id = vl := by
  obtain ⟨u, hu, he, -⟩ := substation_of_shell hshell hv
  exact he.symm.trans (h.voltageLevel_id vl u hu)

section Reindex

variable {index : ExtTreeMap String IndexEntry}

theorem keeps_reindex {x : String} {c : Connectable} :
    ({ n with index } : Network).Keeps x c ↔ n.Keeps x c := by
  cases c <;> rfl

theorem attaches_reindex {a : Attachment} {t : Terminal} :
    ({ n with index } : Network).Attaches a t ↔ n.Attaches a t := by
  simp only [Attaches, keeps_reindex]

theorem stores_reindex {x : String} {e : IndexEntry} :
    ({ n with index } : Network).Stores x e ↔ n.Stores x e := by
  simp only [stores_iff, keeps_reindex]
  rfl

end Reindex

namespace Rewired

theorem refl (n : Network) : Rewired tight n n :=
  ⟨rfl, fun _ => rfl, fun _ u hu => ⟨u, hu, .refl u⟩⟩

theorem trans {k : Network} (h : Rewired tight n m) (g : Rewired tight m k) :
    Rewired tight n k where
  rest := by rw [g.rest, h.rest]
  shell := fun vl => (g.shell vl).trans (h.shell vl)
  inside := by
    intro vl v hv
    obtain ⟨u, hu, hr⟩ := g.inside vl v hv
    obtain ⟨t, ht, hs⟩ := h.inside vl u hu
    exact ⟨t, ht, hs.trans hr⟩

theorem index_eq (h : Rewired tight n m) : m.index = n.index := by rw [h.rest]

theorem substations_eq (h : Rewired tight n m) : m.substations = n.substations := by rw [h.rest]

theorem keeps_iff (h : Rewired tight n m) {id : String} {c : Connectable} :
    m.Keeps id c ↔ n.Keeps id c := by
  rw [h.rest]
  cases c <;> rfl

theorem attaches_iff (h : Rewired tight n m) {a : Attachment} {t : Terminal} :
    m.Attaches a t ↔ n.Attaches a t := by
  simp only [Attaches, h.keeps_iff]

theorem exists_inside (h : Rewired tight n m) {vl : String} {t : Topology}
    (ht : n.inside? vl = some t) : ∃ u, m.inside? vl = some u ∧ t.Rewired tight u := by
  have hm : vl ∈ m.voltageLevels := by
    rw [mem_voltageLevels_of_shell h.shell, ← inside?_isSome_iff, ht, Option.isSome_some]
  obtain ⟨u, hu⟩ := Option.isSome_iff_exists.mp (inside?_isSome_iff.mpr hm)
  obtain ⟨t', ht', hr⟩ := h.inside vl u hu
  have heq := Option.some.inj (ht.symm.trans ht')
  subst heq
  exact ⟨u, hu, hr⟩

theorem stores_iff (h : Rewired tight n m) {id : String} {entry : IndexEntry} :
    m.Stores id entry ↔ n.Stores id entry := by
  constructor
  · intro hx
    rcases hx with hs | hv | ⟨ht, hi⟩ | hc
    · exact .substation (h.substations_eq ▸ hs)
    · exact .voltageLevel ((mem_voltageLevels_of_shell h.shell).mp hv)
    · obtain ⟨t, ht, hr⟩ := h.inside _ _ ht
      exact .inside ht (hr.holds_iff.mp hi)
    · exact .connectable (h.keeps_iff.mp hc)
  · intro hx
    rcases hx with hs | hv | ⟨ht, hi⟩ | hc
    · exact .substation (h.substations_eq.symm ▸ hs)
    · exact .voltageLevel ((mem_voltageLevels_of_shell h.shell).mpr hv)
    · obtain ⟨t, ht, hr⟩ := h.exists_inside ht
      exact .inside ht (hr.holds_iff.mpr hi)
    · exact .connectable (h.keeps_iff.mpr hc)

theorem hasBus_iff (h : Rewired tight n m) {vl bus : String} :
    m.HasBus vl bus ↔ n.HasBus vl bus := by
  constructor
  · intro hx
    obtain ⟨l, hl, hb⟩ := hx
    obtain ⟨t, ht, hr⟩ := h.inside _ _ hl
    cases hr
    exact ⟨l, ht, hb⟩
  · intro hx
    obtain ⟨l, hl, hb⟩ := hx
    obtain ⟨t, ht, hr⟩ := h.exists_inside hl
    cases hr
    exact ⟨l, ht, hb⟩

end Rewired

theorem inside?_setTopology (n : Network) (vl : String) (t : Topology) (other : String) :
    (n.setTopology vl t).inside? other =
      if vl = other then (n.inside? other).map fun _ => t else n.inside? other := by
  simp only [inside?, setTopology, ExtTreeMap.getElem?_modify, Std.compare_eq_iff_eq]
  split
  next he =>
    have heq := he
    subst heq
    rw [Option.map_map, Option.map_map]
    rfl
  next => rfl

theorem inside?_setTopology_self {vl : String} {u : Topology} (hu : n.inside? vl = some u)
    (t : Topology) : (n.setTopology vl t).inside? vl = some t := by
  rw [inside?_setTopology, if_pos rfl, hu, Option.map_some]

theorem shell?_setTopology (n : Network) (vl : String) (t : Topology) (other : String) :
    (n.setTopology vl t).shell? other = n.shell? other := by
  simp only [shell?, setTopology, ExtTreeMap.getElem?_modify, Std.compare_eq_iff_eq]
  split
  next he =>
    have heq := he
    subst heq
    rw [Option.map_map]
    rfl
  next => rfl

theorem rewired_setTopology {vl : String} {t u : Topology} (ht : n.inside? vl = some t)
    (hr : t.Rewired tight u) : Rewired tight n (n.setTopology vl u) where
  rest := rfl
  shell := n.shell?_setTopology vl u
  inside := by
    intro other v hv
    rw [inside?_setTopology] at hv
    split at hv
    next he =>
      have heq := he
      subst heq
      rw [ht] at hv
      exact ⟨t, ht, Option.some.inj hv ▸ hr⟩
    next => exact ⟨v, hv, .refl v⟩

theorem Rewired.firm_wiring (h : Rewired tight n m)
    (hn : ∀ vl w, n.inside? vl = some (.nodeBreaker w) → w.Firm tight) {vl : String} {w : Wiring}
    (hw : m.inside? vl = some (.nodeBreaker w)) : w.Firm tight := by
  obtain ⟨t, ht, hr⟩ := h.inside vl _ hw
  cases hr with
  | refl => exact hn vl w ht
  | wiring hf hs => exact hf

theorem holdsAt_setTopology {vl : String} {w w' : Wiring}
    (hw : n.inside? vl = some (.nodeBreaker w)) {other : String} {node : Node} {a : Attachment} :
    (n.setTopology vl (.nodeBreaker w')).HoldsAt other node a ↔
      if vl = other then w'.terminals[node]? = some a else n.HoldsAt other node a := by
  unfold HoldsAt
  rw [inside?_setTopology]
  split
  next he =>
    have heq := he
    subst heq
    simp [hw]
  next => rfl

end Network

end Switchyard
