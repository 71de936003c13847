import Switchyard.Network.Remove
import Switchyard.Proofs.Creation

namespace Switchyard

open Std

variable [Numbering]

namespace Topology

/-- The second inside has the terminals of the first, and at least its buses. -/
structure Replaces (t u : Topology) : Prop where
  terminals : ∀ (node : Node) a, (∃ w, u = .nodeBreaker w ∧ w.terminals[node]? = some a) ↔
    ∃ w, t = .nodeBreaker w ∧ w.terminals[node]? = some a
  buses : ∀ bus l, t = .busBreaker l → bus ∈ l.buses → ∃ l', u = .busBreaker l' ∧ bus ∈ l'.buses

theorem Replaces.wiring {w w' : Wiring} (h : w'.terminals = w.terminals) :
    (nodeBreaker w).Replaces (nodeBreaker w') where
  terminals := by simp [h]
  buses := by simp

theorem Replaces.layout {l l' : BusLayout} (h : ∀ bus ∈ l.buses, bus ∈ l'.buses) :
    (busBreaker l).Replaces (busBreaker l') where
  terminals := by simp
  buses := by
    intro bus k hk hb
    cases hk
    exact ⟨l', rfl, h bus hb⟩

end Topology

namespace Network

variable {tight : Prop} {n : Network} {vl : String} {t u : Topology}

theorem keeps_setTopology {x : String} {c : Connectable} :
    (n.setTopology vl u).Keeps x c ↔ n.Keeps x c := by
  cases c <;> rfl

/-- Another inside changes what is stored there, and nothing else. -/
theorem stores_setTopology (ht : n.inside? vl = some t) (u : Topology) :
    ∃ rest : String → IndexEntry → Prop,
      (∀ x e, n.Stores x e ↔ (∃ kind, t.Holds x kind ∧ e = ⟨kind, some vl⟩) ∨ rest x e) ∧
      (∀ x e, (n.setTopology vl u).Stores x e ↔
        (∃ kind, u.Holds x kind ∧ e = ⟨kind, some vl⟩) ∨ rest x e) ∧
      ∀ x kind, rest x ⟨kind, some vl⟩ → kind = .busbarSection := by
  refine ⟨fun x e => x ∈ n.substations ∧ e = ⟨.substation, none⟩ ∨
    x ∈ n.voltageLevels ∧ e = ⟨.voltageLevel, none⟩ ∨
    (∃ other s kind, other ≠ vl ∧ n.inside? other = some s ∧ s.Holds x kind ∧
      e = ⟨kind, some other⟩) ∨ ∃ c, n.Keeps x c ∧ e = c.entry, ?_, ?_, ?_⟩
  · intro x e
    rw [stores_iff]
    grind
  · intro x e
    have hs : x ∈ (n.setTopology vl u).substations ↔ x ∈ n.substations := Iff.rfl
    have hv : x ∈ (n.setTopology vl u).voltageLevels ↔ x ∈ n.voltageLevels :=
      ExtTreeMap.mem_modify
    simp only [stores_iff, keeps_setTopology, hs, hv, inside?_setTopology]
    have hsome : (n.inside? vl).map (fun _ => u) = some u := by rw [ht, Option.map_some]
    grind
  · intro x kind hx
    rcases hx with ⟨-, he⟩ | ⟨-, he⟩ | ⟨other, s, k, hne, -, -, he⟩ | ⟨c, -, he⟩
    · cases he
    · cases he
    · cases he
      exact absurd rfl hne
    · cases c <;> cases he
      rfl

theorem inside?_setTopology_of (ht : n.inside? vl = some t) (x : String) :
    (n.setTopology vl u).inside? x = if vl = x then some u else n.inside? x := by
  rw [inside?_setTopology]
  split
  next he => rw [← he, ht, Option.map_some]
  next => rfl

theorem Coherent.firm_setTopology (h : n.Coherent tight) (ht : n.inside? vl = some t)
    (hu : u.Firm tight vl) {x : String} {s : Topology}
    (hs : (n.setTopology vl u).inside? x = some s) : s.Firm tight x := by
  rw [inside?_setTopology_of ht] at hs
  split at hs
  next he =>
    have heq := he
    subst heq
    exact Option.some.inj hs ▸ hu
  next => exact h.inside x s hs

theorem holdsAt_iff_of_replaces (ht : n.inside? vl = some t) (hr : t.Replaces u)
    {x : String} {node : Node} {a : Attachment} :
    (n.setTopology vl u).HoldsAt x node a ↔ n.HoldsAt x node a := by
  simp only [HoldsAt, inside?_setTopology_of ht]
  split
  next he =>
    have heq := he
    subst heq
    simpa only [ht, Option.some.injEq] using hr.terminals node a
  next => rfl

theorem hasBus_of_replaces (ht : n.inside? vl = some t) (hr : t.Replaces u)
    {x bus : String} (hb : n.HasBus x bus) : (n.setTopology vl u).HasBus x bus := by
  obtain ⟨l, hl, hb⟩ := hb
  simp only [HasBus, inside?_setTopology_of ht]
  split
  next he =>
    have heq := he
    subst heq
    obtain ⟨l', hl', hb'⟩ := hr.buses bus l (Option.some.inj (ht.symm.trans hl)) hb
    exact ⟨l', congrArg some hl', hb'⟩
  next => exact ⟨l, hl, hb⟩

/-- A voltage level gets another inside, with the same terminals and at least
the same buses. -/
theorem Coherent.setTopology (h : n.Coherent tight) (ht : n.inside? vl = some t)
    (hu : u.Firm tight vl) {index : ExtTreeMap String IndexEntry}
    (hindex : ∀ x e, index[x]? = some e ↔ (n.setTopology vl u).Stores x e)
    (hr : t.Replaces u) :
    ({ n with index }.setTopology vl u).Coherent tight := by
  have hkeeps : ∀ {x c}, ({ n with index }.setTopology vl u).Keeps x c ↔ n.Keeps x c :=
    keeps_setTopology.trans keeps_reindex
  have hattaches : ∀ {a x}, ({ n with index }.setTopology vl u).Attaches a x ↔ n.Attaches a x := by
    simp only [Attaches, hkeeps, implies_true]
  have hshell : ∀ x, ({ n with index }.setTopology vl u).shell? x = n.shell? x :=
    n.shell?_setTopology vl u
  exact
    { index_iff := fun x e => (hindex x e).trans (stores_reindex (n := n.setTopology vl u)).symm
      inside := fun _ _ hs => h.firm_setTopology ht hu hs
      holdsAt_iff := fun x node a =>
        (holdsAt_iff_of_replaces ht hr).trans ((h.holdsAt_iff x node a).trans hattaches.symm)
      hasBus := fun a x bus ha =>
        hasBus_of_replaces ht hr (h.hasBus a x bus (hattaches.mp ha))
      substation_mem := h.substation_mem_of_shell hshell rfl
      substation_id := h.substation_id
      voltageLevel_id := h.voltageLevel_id_of_shell hshell
      connectable_id := fun x c hc => h.connectable_id x c (hkeeps.mp hc) }

theorem Coherent.gain_inside (h : n.Coherent tight) (ht : n.inside? vl = some t)
    (hu : u.Firm tight vl) {id : String} {kind : ObjectKind} (hid : id ∉ n.index)
    (hholds : ∀ x k, u.Holds x k ↔ t.Holds x k ∨ x = id ∧ k = kind)
    (hr : t.Replaces u) :
    n.Gains tight id ⟨kind, some vl⟩ ((n.register id ⟨kind, some vl⟩).setTopology vl u) := by
  refine ⟨h.setTopology ht hu ?_ hr, hid, rfl, fun x c hc => ?_⟩
  · obtain ⟨rest, hold, hnew, -⟩ := stores_setTopology ht u
    apply index_iff_insert h.index_iff hid
    intro x e
    rw [hold, hnew]
    grind
  · exact keeps_setTopology.mpr (keeps_register.mpr hc)

theorem Coherent.lose_inside (h : n.Coherent tight) (ht : n.inside? vl = some t)
    (hu : u.Firm tight vl) {id : String} {kind : ObjectKind} (hid : t.Holds id kind)
    (hkind : kind ≠ .busbarSection) (hholds : ∀ x k, u.Holds x k ↔ t.Holds x k ∧ x ≠ id)
    (hr : t.Replaces u) :
    ({ n with index := n.index.erase id }.setTopology vl u).Coherent tight := by
  refine h.setTopology ht hu (fun x e => ?_) hr
  obtain ⟨rest, hold, hnew, hsections⟩ := stores_setTopology ht u
  have hx := h.index_iff x e
  -- Nothing else is stored under the id.
  have hone : ∀ e, ¬rest id e := by
    intro e he
    have hs : n.Stores id ⟨kind, some vl⟩ := (hold _ _).mpr (Or.inl ⟨kind, hid, rfl⟩)
    have heq := h.entry_unique ((hold _ _).mpr (Or.inr he)) hs
    subst heq
    exact hkind (hsections id kind he)
  rw [ExtTreeMap.getElem?_erase, hnew]
  simp only [Std.compare_eq_iff_eq]
  grind

end Network

variable {tight : Prop} {n : Network}

theorem BusDraft.create_cases (h : n.Coherent tight) (d : BusDraft) :
    (∃ id m, d.create n = .ok id m ∧ n.Gains tight id ⟨.bus, some d.voltageLevel⟩ m) ∨
      d.create.Refuses n := by
  unfold create Edit.Refuses
  simp only [bind_apply]
  obtain ⟨l, hl, hlayout⟩ | ⟨f, hlayout, hf⟩ := Edit.busLayout_cases n d.voltageLevel
  · rw [hlayout]
    dsimp only
    obtain ⟨id, hid, -, hclaim⟩ | ⟨f, hclaim, hf⟩ :=
      Edit.claimId_cases n d.id d.unique .bus (some d.voltageLevel)
    · rw [hclaim]
      dsimp only
      rw [Edit.busLayout_of_inside (n := n.register id ⟨.bus, some d.voltageLevel⟩) hl]
      dsimp only [Edit.setBusLayout, modify_apply, pure_apply]
      have hr : (Topology.busBreaker l).Replaces (.busBreaker { l with
          buses := l.buses.insert id ⟨id, d.name, d.voltageLevel⟩ }) :=
        .layout fun _ hb => ExtTreeMap.mem_insert.mpr (Or.inr hb)
      refine Or.inl ⟨id, _, rfl, h.gain_inside hl ?_ hid ?_ hr⟩
      · obtain ⟨hbuses, hswitches⟩ := h.inside _ _ hl
        refine ⟨fun x b hb => ?_, fun x s hs => ?_⟩
        · rw [ExtTreeMap.getElem?_insert] at hb
          split at hb
          next he =>
            have heq := Option.some.inj hb
            subst heq
            exact ⟨LawfulEqCmp.eq_of_compare he, rfl⟩
          next => exact hbuses x b hb
        · obtain ⟨hi, hv, h1, h2⟩ := hswitches x s hs
          exact ⟨hi, hv, ExtTreeMap.mem_insert.mpr (Or.inr h1),
            ExtTreeMap.mem_insert.mpr (Or.inr h2)⟩
      · intro x k
        simp only [Topology.Holds, ExtTreeMap.mem_insert, Std.compare_eq_iff_eq]
        grind
    · exact Or.inr ⟨f, by rw [hclaim], hf⟩
  · exact Or.inr ⟨f, by rw [hlayout], hf⟩

theorem BusSwitchDraft.create_cases (h : n.Coherent tight) (d : BusSwitchDraft) :
    (∃ id m, d.create n = .ok id m ∧ n.Gains tight id ⟨.switch, some d.voltageLevel⟩ m) ∨
      d.create.Refuses n := by
  unfold create Edit.Refuses
  simp only [bind_apply]
  obtain ⟨l, hl, hlayout⟩ | ⟨f, hlayout, hf⟩ := Edit.busLayout_cases n d.voltageLevel
  · rw [hlayout]
    dsimp only
    cases h1 : l.buses.contains d.bus1 with
    | false => exact Or.inr ⟨.busNotFound d.bus1 d.voltageLevel, rfl, by simp [Fault.kind]⟩
    | true =>
    cases h2 : l.buses.contains d.bus2 with
    | false => exact Or.inr ⟨.busNotFound d.bus2 d.voltageLevel, rfl, by simp [Fault.kind]⟩
    | true =>
    simp only [Bool.not_true, Bool.false_eq_true, if_false, bind_apply]
    obtain ⟨id, hid, -, hclaim⟩ | ⟨f, hclaim, hf⟩ :=
      Edit.claimId_cases n d.id d.unique .switch (some d.voltageLevel)
    · rw [hclaim]
      dsimp only
      rw [Edit.busLayout_of_inside (n := n.register id ⟨.switch, some d.voltageLevel⟩) hl]
      dsimp only [Edit.setBusLayout, modify_apply, pure_apply]
      refine Or.inl ⟨id, _, rfl, h.gain_inside hl ?_ hid ?_ (.layout fun _ hb => hb)⟩
      · obtain ⟨hbuses, hswitches⟩ := h.inside _ _ hl
        refine ⟨hbuses, fun x s hs => ?_⟩
        rw [ExtTreeMap.getElem?_insert] at hs
        split at hs
        next he =>
          have heq := Option.some.inj hs
          subst heq
          exact ⟨LawfulEqCmp.eq_of_compare he, rfl, by simpa using h1, by simpa using h2⟩
        next => exact hswitches x s hs
      · intro x k
        simp only [Topology.Holds, ExtTreeMap.mem_insert, Std.compare_eq_iff_eq]
        grind
    · exact Or.inr ⟨f, by rw [hclaim], hf⟩
  · exact Or.inr ⟨f, by rw [hlayout], hf⟩

theorem SwitchDraft.create_cases (h : n.Coherent tight) (d : SwitchDraft) :
    (∃ id m, d.create n = .ok id m ∧ n.Gains tight id ⟨.switch, some d.voltageLevel⟩ m) ∨
      d.create.Refuses n := by
  unfold create Edit.Refuses
  simp only [bind_apply]
  obtain ⟨w, hw, hwiring⟩ | ⟨f, hwiring, hf⟩ := Edit.wiring_cases n d.voltageLevel
  · rw [hwiring]
    dsimp only
    by_cases hloop : d.node1 = d.node2
    · refine Or.inr ⟨.switchLoop d.id d.node1, ?_, by simp [Fault.kind]⟩
      rw [if_pos hloop]
      rfl
    rw [if_neg hloop]
    simp only [bind_apply]
    obtain ⟨id, hid, -, hclaim⟩ | ⟨f, hclaim, hf⟩ :=
      Edit.claimId_cases n d.id d.unique .switch (some d.voltageLevel)
    · rw [hclaim]
      dsimp only
      rw [Edit.wiring_of_inside (n := n.register id ⟨.switch, some d.voltageLevel⟩) hw]
      dsimp only [Edit.setWiring, modify_apply, pure_apply]
      refine Or.inl ⟨id, _, rfl, h.gain_inside hw ?_ hid ?_ (.wiring (by simp))⟩
      · obtain ⟨⟨hsound, htight⟩, hvl⟩ := h.inside _ _ hw
        have hnew : id ∉ w.switches := fun hm => h.stores_of_index hid _ (.inside hw ⟨rfl, hm⟩)
        refine ⟨⟨hsound.addSwitch hloop hnew, fun ht => ?_⟩, fun x s hs => ?_⟩
        · exact Wiring.tight_addSwitch hsound.toLaid (htight ht) _
        · rw [Wiring.switches_addSwitch, ExtTreeMap.getElem?_insert] at hs
          split at hs
          next => exact Option.some.inj hs ▸ rfl
          next => exact hvl x s hs
      · intro x k
        simp only [Topology.Holds, Wiring.switches_addSwitch, ExtTreeMap.mem_insert,
          Std.compare_eq_iff_eq]
        grind
    · exact Or.inr ⟨f, by rw [hclaim], hf⟩
  · exact Or.inr ⟨f, by rw [hwiring], hf⟩

end Switchyard
