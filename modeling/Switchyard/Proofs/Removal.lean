import Switchyard.Proofs.Leaving

namespace Switchyard

open Std Network

variable [Numbering] {tight : Prop} {n : Network}

theorem Network.keeps_of_connectable? {id : String} {c : Connectable}
    (h : n.connectable? id = some c) : n.Keeps id c := by
  unfold connectable? at h
  simp only [Option.or_eq_some_iff, Option.map_eq_some_iff] at h
  obtain ⟨b, hb, rfl⟩ | ⟨-, ⟨i, hi, rfl⟩ | ⟨-, ⟨b, hb, rfl⟩ | ⟨-, ⟨t, ht, rfl⟩⟩⟩⟩ := h
  · exact hb
  · exact hi
  · exact hb
  · exact ht

theorem Network.Coherent.connectable?_eq_some_iff (h : n.Coherent tight) {id : String}
    {c : Connectable} : n.connectable? id = some c ↔ n.Keeps id c := by
  refine ⟨keeps_of_connectable?, fun hc => ?_⟩
  cases hd : n.connectable? id with
  | some d => rw [h.keeps_unique (keeps_of_connectable? hd) hc]
  | none =>
    simp only [connectable?, Option.or_eq_none_iff, Option.map_eq_none_iff] at hd
    cases c <;> simp_all [Keeps]

namespace Edit

theorem removeConnectable_cases (h : n.Coherent tight) (id : String) :
    (∃ c m, n.Keeps id c ∧ removeConnectable id n = .ok () m ∧ m.Coherent tight ∧
        m.index = n.index.erase id ∧ ∀ x d, m.Keeps x d ↔ n.Keeps x d ∧ x ≠ id) ∨
      (∀ c, ¬n.Keeps id c) ∧ Refuses (removeConnectable id) n := by
  cases hc : n.connectable? id with
  | none =>
    refine Or.inr ⟨fun c hk => ?_, .connectableNotFound id, ?_, by simp [Fault.kind]⟩
    · rw [h.connectable?_eq_some_iff.mpr hk] at hc
      cases hc
    · simp only [removeConnectable, bind_apply, get_apply, hc]
      rfl
  | some c =>
    have hk := keeps_of_connectable? hc
    have hinside : ∀ vl, ((n.take id c).forget id).inside? vl = n.inside? vl := n.inside?_take id c
    have hin : ∀ vl node, .atNode vl node ∈ c.terminals.map (·.2) →
        ∃ w, ((n.take id c).forget id).inside? vl = some (.nodeBreaker w) := by
      intro vl node hm
      obtain ⟨⟨side, t⟩, hs, rfl⟩ := List.mem_map.mp hm
      obtain ⟨w, hw, -⟩ := (h.holdsAt_iff vl node ⟨id, side⟩).mpr ⟨c, hk, hs⟩
      exact ⟨w, (hinside vl).trans hw⟩
    have hfirm : ∀ vl w, ((n.take id c).forget id).inside? vl = some (.nodeBreaker w) →
        w.Firm tight := fun vl w hw => h.firm_wiring ((hinside vl).symm.trans hw)
    obtain ⟨m, hm, hr, hh⟩ := detachTerminals_spec hfirm hin
    have hh : ∀ vl node a, m.HoldsAt vl node a ↔
        n.HoldsAt vl node a ∧ .atNode vl node ∉ c.terminals.map (·.2) := by
      intro vl node a
      rw [hh]
      simp only [HoldsAt, hinside]
    have hrun : removeConnectable id n =
        detachTerminals (c.terminals.map (·.2)) ((n.take id c).forget id) := by
      simp only [removeConnectable, bind_apply, get_apply, hc]
      cases c <;> rfl
    exact Or.inl ⟨c, m, hk, hrun.trans hm, h.take hk hr hh⟩

/-- The inside of a voltage level without one of its switches. -/
theorem inside_without_switch (h : n.Coherent tight) {id vl : String} {v : VoltageLevel}
    (hv : n.voltageLevels[vl]? = some v) (hi : n.index[id]? = some ⟨.switch, some vl⟩)
    (hid : v.topology.Holds id .switch) :
    ∃ u, removeSwitch id n = .ok () ({ n with index := n.index.erase id }.setTopology vl u) ∧
      u.kind = v.topology.kind ∧ u.Firm tight vl ∧ v.topology.Replaces u ∧
      ∀ x k, u.Holds x k ↔ v.topology.Holds x k ∧ x ≠ id := by
  have hin : n.inside? vl = some v.topology := inside?_eq_some_iff.mpr ⟨v, hv, rfl⟩
  have hfirm := h.inside vl _ hin
  cases ht : v.topology with
  | nodeBreaker w =>
    rw [ht] at hin hid hfirm
    obtain ⟨⟨hsound, htight⟩, hvl⟩ := hfirm
    obtain ⟨w', hw', hs', hsw, hterm, htight'⟩ := hsound.removeSwitch? hid.2
    refine ⟨.nodeBreaker w', ?_, rfl, ⟨⟨hs', fun ht => htight' (htight ht)⟩, fun x s hs => ?_⟩,
      .wiring hterm, ?_⟩
    · simp only [removeSwitch, bind_apply, get_apply, hi, hv, ht, hw']
      rfl
    · rw [hsw, ExtTreeMap.getElem?_erase] at hs
      split at hs
      next => cases hs
      next => exact hvl x s hs
    · intro x k
      simp only [Topology.Holds, hsw, ExtTreeMap.mem_erase, ne_eq, Std.compare_eq_iff_eq]
      grind
  | busBreaker l =>
    rw [ht] at hin hid hfirm
    obtain ⟨hbuses, hswitches⟩ := hfirm
    have hm : id ∈ l.switches := by simpa [Topology.Holds] using hid
    have hnot : id ∉ l.buses := fun hb => by
      have hs : n.Stores id ⟨.bus, some vl⟩ := .inside hin (Or.inr ⟨rfl, hb⟩)
      have he := hi.symm.trans ((h.index_iff id _).mpr hs)
      cases he
    refine ⟨.busBreaker { l with switches := l.switches.erase id }, ?_, rfl,
      ⟨hbuses, fun x s hs => ?_⟩, .layout fun _ hb => hb, ?_⟩
    · have hc : l.switches.contains id = true := hm
      simp only [removeSwitch, bind_apply, get_apply, hi, hv, ht, hc, Bool.not_true,
        Bool.false_eq_true, if_false]
      rfl
    · rw [ExtTreeMap.getElem?_erase] at hs
      split at hs
      next => cases hs
      next => exact hswitches x s hs
    · intro x k
      simp only [Topology.Holds, ExtTreeMap.mem_erase, ne_eq, Std.compare_eq_iff_eq]
      grind

theorem removeSwitch_of_missing {id : String} (h : ∀ vl, n.index[id]? ≠ some ⟨.switch, some vl⟩) :
    removeSwitch id n = .error (.switchNotFound id) n := by
  simp only [removeSwitch, bind_apply, get_apply]
  generalize n.index[id]? = found at h
  obtain _ | ⟨kind, _ | vl⟩ := found
  · rfl
  · cases kind <;> rfl
  · cases kind with
    | switch => exact absurd rfl (h vl)
    | _ => rfl

/-- A switch leaves the voltage level that the index tells. -/
theorem removeSwitch_cases (h : n.Coherent tight) (id : String) :
    (∃ vl t u m, n.index[id]? = some ⟨.switch, some vl⟩ ∧ n.inside? vl = some t ∧
        removeSwitch id n = .ok () m ∧ m.Coherent tight ∧ m.index = n.index.erase id ∧
        (∀ x c, m.Keeps x c ↔ n.Keeps x c) ∧
        (∀ x, m.inside? x = if vl = x then some u else n.inside? x) ∧ u.kind = t.kind ∧
        ∀ x k, u.Holds x k ↔ t.Holds x k ∧ x ≠ id) ∨
      (∀ vl, n.index[id]? ≠ some ⟨.switch, some vl⟩) ∧ Refuses (removeSwitch id) n := by
  by_cases hk : ∃ vl, n.index[id]? = some ⟨.switch, some vl⟩
  · obtain ⟨vl, hi⟩ := hk
    refine Or.inl ?_
    obtain ⟨t, hin, hid⟩ : ∃ t, n.inside? vl = some t ∧ t.Holds id .switch := by
      rcases stores_iff.mp ((h.index_iff id _).mp hi) with
        ⟨-, he⟩ | ⟨-, he⟩ | ⟨vl', t, kind, ht, hh, he⟩ | ⟨c, hc, he⟩
      · cases he
      · cases he
      · cases he
        exact ⟨t, ht, hh⟩
      · cases c <;> cases he
    obtain ⟨v, hv, rfl⟩ := inside?_eq_some_iff.mp hin
    obtain ⟨u, hrun, hkind, hu, hr, hholds⟩ := inside_without_switch h hv hi hid
    refine ⟨vl, v.topology, u, _, hi, hin, hrun,
      h.lose_inside hin hu hid (by simp) hholds hr, rfl, fun x c => ?_, fun x => ?_, hkind,
      hholds⟩
    · cases c <;> rfl
    · rw [inside?_setTopology]
      split
      next he =>
        have heq := he
        subst heq
        exact congrArg (Option.map fun _ => u) hin
      next => rfl
  · have hno : ∀ vl, n.index[id]? ≠ some ⟨.switch, some vl⟩ := fun vl hi => hk ⟨vl, hi⟩
    exact Or.inr ⟨hno, .switchNotFound id, removeSwitch_of_missing hno, by simp [Fault.kind]⟩

end Edit

end Switchyard
