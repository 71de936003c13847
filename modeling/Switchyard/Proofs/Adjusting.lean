import Switchyard.Proofs.Clearing

namespace Switchyard

open Std Network

/-- The equipment with another feeder position. Busbar sections have none. -/
def Connectable.withPosition (c : Connectable) (position : Option FeederPosition) : Connectable :=
  match c with
  | .busbarSection b => .busbarSection b
  | .injection i => .injection { i with position }
  | .branch b => .branch { b with position }
  | .transformer t => .transformer { t with position }

section WithPosition

variable (c : Connectable) (position : Option FeederPosition)

@[simp] theorem Connectable.id_withPosition : (c.withPosition position).id = c.id := by
  cases c <;> rfl

@[simp] theorem Connectable.terminals_withPosition :
    (c.withPosition position).terminals = c.terminals := by
  cases c <;> rfl

@[simp] theorem Connectable.entry_withPosition : (c.withPosition position).entry = c.entry := by
  cases c <;> rfl

end WithPosition

variable [Numbering] {tight : Prop} {n m : Network}

/-- A voltage level gets another inside, with the same objects and terminals. -/
theorem Network.Coherent.same_inside (h : n.Coherent tight) {vl : String} {t u : Topology}
    (ht : n.inside? vl = some t) (hu : u.Firm tight vl)
    (hholds : ∀ x k, u.Holds x k ↔ t.Holds x k)
    (hr : t.Replaces u) :
    (n.setTopology vl u).Coherent tight := by
  have hindex : ∀ (x : String) e, n.index[x]? = some e ↔ (n.setTopology vl u).Stores x e := by
    intro x e
    obtain ⟨rest, hold, hnew, -⟩ := stores_setTopology ht u
    rw [h.index_iff, hold, hnew]
    simp only [hholds]
  exact h.setTopology ht hu hindex hr

theorem Network.Coherent.keeps_put_same (h : n.Coherent tight) {id : String} {c d : Connectable}
    (hc : n.Keeps id c) (he : d.entry = c.entry) {x : String} {e : Connectable} :
    (n.put id d).Keeps x e ↔ x = id ∧ e = d ∨ x ≠ id ∧ n.Keeps x e := by
  have hk : d.kind = c.kind := congrArg IndexEntry.kind he
  have hone : n.Keeps x e → x = id → e = c := fun hx hi => h.keeps_unique (hi ▸ hx) hc
  cases c <;> cases d <;> first | cases hk; done | skip
  all_goals
    cases e <;>
      simp only [Network.put, Keeps, ExtTreeMap.getElem?_insert, Std.compare_eq_iff_eq,
        reduceCtorEq, and_false, false_or, Connectable.busbarSection.injEq,
        Connectable.injection.injEq, Connectable.branch.injEq,
        Connectable.transformer.injEq] at hone ⊢ <;>
      grind

theorem Network.Coherent.attaches_put_same (h : n.Coherent tight) {id : String} {c d : Connectable}
    (hc : n.Keeps id c) (he : d.entry = c.entry) (ht : d.terminals = c.terminals)
    {a : Attachment} {t : Terminal} : (n.put id d).Attaches a t ↔ n.Attaches a t := by
  simp only [Attaches, h.keeps_put_same hc he]
  constructor
  · intro hx
    obtain ⟨e, ⟨hi, rfl⟩ | ⟨-, hk⟩, hs⟩ := hx
    · exact ⟨c, hi ▸ hc, ht ▸ hs⟩
    · exact ⟨e, hk, hs⟩
  · intro hx
    obtain ⟨e, hk, hs⟩ := hx
    by_cases hi : a.connectable = id
    · have heq := h.keeps_unique (hi ▸ hk) hc
      subst heq
      exact ⟨d, Or.inl ⟨hi, rfl⟩, ht.symm ▸ hs⟩
    · exact ⟨e, Or.inr ⟨hi, hk⟩, hs⟩

theorem Network.Coherent.stores_put_same (h : n.Coherent tight) {id : String} {c d : Connectable}
    (hc : n.Keeps id c) (he : d.entry = c.entry) {x : String} {e : IndexEntry} :
    (n.put id d).Stores x e ↔ n.Stores x e := by
  have hkept : (∃ b, (n.put id d).Keeps x b ∧ e = b.entry) ↔ ∃ b, n.Keeps x b ∧ e = b.entry := by
    simp only [h.keeps_put_same hc he]
    constructor
    · intro hx
      obtain ⟨b, ⟨rfl, rfl⟩ | ⟨-, hb⟩, rfl⟩ := hx
      · exact ⟨c, hc, he⟩
      · exact ⟨b, hb, rfl⟩
    · intro hx
      obtain ⟨b, hb, rfl⟩ := hx
      by_cases hi : x = id
      · have heq := h.keeps_unique (hi ▸ hb) hc
        subst heq
        exact ⟨d, Or.inl ⟨hi, rfl⟩, he.symm⟩
      · exact ⟨b, Or.inr ⟨hi, hb⟩, rfl⟩
  simp only [stores_iff, substations_put, voltageLevels_put, inside?_put, hkept]

/-- A connectable may be drawn elsewhere, but not moved in the network. -/
theorem Network.Coherent.put_same (h : n.Coherent tight) {id : String} {c d : Connectable}
    (hc : n.Keeps id c) (he : d.entry = c.entry) (ht : d.terminals = c.terminals)
    (hid : d.id = c.id) : (n.put id d).Coherent tight where
  index_iff := by
    intro x e
    rw [index_put, h.index_iff, h.stores_put_same hc he]
  inside := by simpa only [inside?_put] using h.inside
  holdsAt_iff := by
    simpa only [holdsAt_put, h.attaches_put_same hc he ht] using h.holdsAt_iff
  hasBus := by simpa only [hasBus_put, h.attaches_put_same hc he ht] using h.hasBus
  substation_mem := by simpa only [voltageLevels_put, substations_put] using h.substation_mem
  substation_id := by simpa only [substations_put] using h.substation_id
  voltageLevel_id := by simpa only [voltageLevels_put] using h.voltageLevel_id
  connectable_id := by
    intro x e hk
    rcases (h.keeps_put_same hc he).mp hk with ⟨rfl, rfl⟩ | ⟨-, hk⟩
    · exact hid.trans (h.connectable_id x c hc)
    · exact h.connectable_id x e hk

namespace Edit

theorem addConnection_cases (h : n.Coherent tight) (vl : String) (a b : Node) :
    (∃ m, addConnection vl a b n = .ok () m ∧ m.Coherent tight ∧ m.index = n.index ∧
        ∀ x c, m.Keeps x c ↔ n.Keeps x c) ∨
      Refuses (addConnection vl a b) n := by
  unfold addConnection Refuses
  simp only [bind_apply]
  obtain ⟨w, hw, hwiring⟩ | ⟨f, hwiring, hf⟩ := wiring_cases n vl
  · rw [hwiring]
    dsimp only
    by_cases hloop : a = b
    · refine Or.inr ⟨.connectionLoop a, ?_, by simp [Fault.kind]⟩
      rw [if_pos hloop]
      rfl
    · rw [if_neg hloop]
      obtain ⟨⟨hsound, htight⟩, hvl⟩ := h.inside vl _ hw
      have hs : (w.addConnection a b).switches = w.switches := w.switches_addEdge _
      have ht : (w.addConnection a b).terminals = w.terminals := w.terminals_addEdge _
      refine Or.inl ⟨_, rfl, h.same_inside hw ⟨⟨hsound.addConnection hloop, fun ht => ?_⟩, ?_⟩ ?_
        (.wiring ht), rfl, fun x c => by cases c <;> rfl⟩
      · exact hsound.tight_addEdge (htight ht) _
      · simpa only [hs] using hvl
      · simp only [Topology.Holds, hs, implies_true]
  · exact Or.inr ⟨f, by rw [hwiring], hf⟩

theorem removeConnections_cases (h : n.Coherent tight) (vl : String) {a b : Node}
    (hne : tight → a ≠ b) :
    (∃ w count m, n.inside? vl = some (.nodeBreaker w) ∧
        removeConnections vl a b n = .ok count m ∧ m.Coherent tight ∧ m.index = n.index ∧
        (∀ x c, m.Keeps x c ↔ n.Keeps x c) ∧
        ∀ x, m.inside? x =
          if vl = x then some (.nodeBreaker (w.removeConnections a b)) else n.inside? x) ∨
      Refuses (removeConnections vl a b) n := by
  unfold removeConnections Refuses
  simp only [bind_apply]
  obtain ⟨w, hw, hwiring⟩ | ⟨f, hwiring, hf⟩ := wiring_cases n vl
  · rw [hwiring]
    obtain ⟨⟨hsound, htight⟩, hvl⟩ := h.inside vl _ hw
    refine Or.inl ⟨w, _, _, hw, rfl, h.same_inside hw ⟨⟨hsound.removeConnections a b, fun ht => ?_⟩,
      ?_⟩ ?_ (.wiring (by simp)), rfl, fun x c => by cases c <;> rfl, fun x => ?_⟩
    · exact hsound.tight_removeConnections (htight ht) (hne ht)
    · simpa only [Wiring.switches_removeConnections] using hvl
    · simp only [Topology.Holds, Wiring.switches_removeConnections, implies_true]
    · rw [inside?_setTopology]
      split
      next he =>
        have heq := he
        subst heq
        rw [hw, Option.map_some]
      next => rfl
  · exact Or.inr ⟨f, by rw [hwiring], hf⟩

theorem setBusbarPosition_of_some {id : String} {b : BusbarSection}
    (hb : n.busbarSections[id]? = some b) (position : Option BusbarPosition) :
    setBusbarPosition id position n = .ok () (n.put id (.busbarSection { b with position })) := by
  have hc : n.busbarSections.contains id = true := by
    rw [ExtTreeMap.contains_eq_isSome_getElem?, hb, Option.isSome_some]
  simp only [setBusbarPosition, bind_apply, get_apply, hc, modify_eq_insert hb]
  rfl

theorem setBusbarPosition_eq_ok {m : Network} {id : String} {position : Option BusbarPosition}
    (h : setBusbarPosition id position n = .ok () m) :
    ∃ b, n.busbarSections[id]? = some b ∧
      m = n.put id (.busbarSection { b with position }) := by
  cases hb : n.busbarSections[id]? with
  | none =>
    have hc : n.busbarSections.contains id = false := by
      rw [ExtTreeMap.contains_eq_isSome_getElem?, hb, Option.isSome_none]
    simp only [setBusbarPosition, bind_apply, get_apply, hc] at h
    cases h
  | some b =>
    rw [setBusbarPosition_of_some hb] at h
    cases h
    exact ⟨b, rfl, rfl⟩

theorem setBusbarPosition_cases (h : n.Coherent tight) (id : String)
    (position : Option BusbarPosition) :
    (∃ m, setBusbarPosition id position n = .ok () m ∧ m.Coherent tight ∧ m.index = n.index ∧
        ∀ (x : String) b, n.busbarSections[x]? = some b → ∃ b', m.busbarSections[x]? = some b' ∧
          (b'.position = position ∨ b' = b)) ∨
      Refuses (setBusbarPosition id position) n := by
  cases hb : n.busbarSections[id]? with
  | none =>
    have hc : n.busbarSections.contains id = false := by
      rw [ExtTreeMap.contains_eq_isSome_getElem?, hb, Option.isSome_none]
    refine Or.inr ⟨.busbarSectionNotFound id, ?_, by simp [Fault.kind]⟩
    simp only [setBusbarPosition, bind_apply, get_apply, hc]
    rfl
  | some b =>
    refine Or.inl ⟨n.put id (.busbarSection { b with position }),
      setBusbarPosition_of_some hb position,
      h.put_same (c := .busbarSection b) hb rfl rfl rfl, index_put _ _ _, fun x d hd => ?_⟩
    simp only [Network.put, ExtTreeMap.getElem?_insert]
    split
    next => exact ⟨_, rfl, Or.inl rfl⟩
    next => exact ⟨d, hd, Or.inr rfl⟩

theorem setFeederPosition_cases (h : n.Coherent tight) (id : String)
    (position : Option FeederPosition) :
    (∃ c m, n.Keeps id c ∧ setFeederPosition id position n = .ok () m ∧ m.Coherent tight ∧
        m.index = n.index ∧ m = n.put id (c.withPosition position)) ∨
      (∀ c, n.Keeps id c → c.holder ≠ none) ∧ Refuses (setFeederPosition id position) n := by
  cases hi : n.injections[id]? with
  | some i =>
    have hc : n.injections.contains id = true := by
      rw [ExtTreeMap.contains_eq_isSome_getElem?, hi, Option.isSome_some]
    refine Or.inl ⟨.injection i, _, hi, ?_,
      h.put_same (c := .injection i) (d := .injection { i with position }) hi rfl rfl rfl,
      index_put _ _ _, rfl⟩
    simp only [setFeederPosition, bind_apply, get_apply, hc, modify_eq_insert hi]
    rfl
  | none =>
  have hi : n.injections.contains id = false := by
    rw [ExtTreeMap.contains_eq_isSome_getElem?, hi, Option.isSome_none]
  cases hb : n.branches[id]? with
  | some b =>
    have hc : n.branches.contains id = true := by
      rw [ExtTreeMap.contains_eq_isSome_getElem?, hb, Option.isSome_some]
    refine Or.inl ⟨.branch b, _, hb, ?_,
      h.put_same (c := .branch b) (d := .branch { b with position }) hb rfl rfl rfl,
      index_put _ _ _, rfl⟩
    simp only [setFeederPosition, bind_apply, get_apply, hi, hc, modify_eq_insert hb]
    rfl
  | none =>
  have hb : n.branches.contains id = false := by
    rw [ExtTreeMap.contains_eq_isSome_getElem?, hb, Option.isSome_none]
  cases ht : n.transformers[id]? with
  | some t =>
    have hc : n.transformers.contains id = true := by
      rw [ExtTreeMap.contains_eq_isSome_getElem?, ht, Option.isSome_some]
    refine Or.inl ⟨.transformer t, _, ht, ?_,
      h.put_same (c := .transformer t) (d := .transformer { t with position }) ht rfl rfl rfl,
      index_put _ _ _, rfl⟩
    simp only [setFeederPosition, bind_apply, get_apply, hi, hb, hc, modify_eq_insert ht]
    rfl
  | none =>
  have ht : n.transformers.contains id = false := by
    rw [ExtTreeMap.contains_eq_isSome_getElem?, ht, Option.isSome_none]
  refine Or.inr ⟨fun c hc => ?_, .feederNotFound id, ?_, by simp [Fault.kind]⟩
  · cases c <;> simp_all [Network.Keeps, Connectable.holder]
  · simp only [setFeederPosition, bind_apply, get_apply, hi, hb, ht]
    rfl

theorem kind?_eq_switch_iff (h : n.Coherent tight) {id : String} :
    n.kind? id = some .switch ↔ ∃ vl t, n.inside? vl = some t ∧ t.Holds id .switch := by
  constructor
  · intro hk
    obtain ⟨⟨kind, holder⟩, hi, rfl⟩ := Option.map_eq_some_iff.mp hk
    rcases stores_iff.mp ((h.index_iff id _).mp hi) with
      ⟨-, he⟩ | ⟨-, he⟩ | ⟨vl, t, kind, ht, hh, he⟩ | ⟨c, -, he⟩
    · cases he
    · cases he
    · cases he
      exact ⟨vl, t, ht, hh⟩
    · cases c <;> cases he
  · intro hx
    obtain ⟨vl, t, ht, hh⟩ := hx
    rw [kind?, (h.index_iff id _).mpr (.inside ht hh), Option.map_some]

/-- The test of `setSwitchOpen` on each voltage level. -/
def holdsSwitch (id : String) (v : VoltageLevel) : Bool :=
  match v.topology with
  | .nodeBreaker w => w.switches.contains id
  | .busBreaker l => l.switches.contains id

theorem holdsSwitch_iff {id : String} {v : VoltageLevel} :
    holdsSwitch id v = true ↔ v.topology.Holds id .switch := by
  unfold holdsSwitch
  cases v.topology <;> simp [Topology.Holds]

/-- What `setSwitchOpen` does at the voltage level found. -/
def setSwitchOpenIn (id : String) (isOpen : Bool) : Option VoltageLevel → Edit Unit
  | none => throw (.switchNotFound id)
  | some v =>
    match v.topology with
    | .nodeBreaker w => setWiring v.id (w.setSwitchOpen id isOpen)
    | .busBreaker l =>
      setBusLayout v.id { l with switches := l.switches.modify id ({ · with isOpen }) }

theorem setSwitchOpen_eq (n : Network) (id : String) (isOpen : Bool) :
    setSwitchOpen id isOpen n =
      setSwitchOpenIn id isOpen (n.voltageLevels.values.find? (holdsSwitch id)) n :=
  rfl

theorem coherent_setSwitchOpen_wiring (h : n.Coherent tight) {vl : String} {w : Wiring}
    (hw : n.inside? vl = some (.nodeBreaker w)) (id : String) (isOpen : Bool) :
    (n.setTopology vl (.nodeBreaker (w.setSwitchOpen id isOpen))).Coherent tight := by
  obtain ⟨⟨hsound, htight⟩, hvl⟩ := h.inside vl _ hw
  refine h.same_inside hw ⟨⟨hsound.setSwitchOpen id isOpen, htight⟩, ?_⟩ ?_ (.wiring rfl)
  · intro x s hs
    simp only [Wiring.setSwitchOpen, ExtTreeMap.getElem?_modify] at hs
    split at hs
    next he =>
      have hx := LawfulEqCmp.eq_of_compare he
      subst hx
      obtain ⟨r, hr, rfl⟩ := Option.map_eq_some_iff.mp hs
      exact hvl id r hr
    next => exact hvl x s hs
  · intro x k
    simp only [Topology.Holds, Wiring.setSwitchOpen, ExtTreeMap.mem_modify]

theorem coherent_setSwitchOpen_layout (h : n.Coherent tight) {vl : String} {l : BusLayout}
    (hl : n.inside? vl = some (.busBreaker l)) (id : String) (isOpen : Bool) :
    (n.setTopology vl (.busBreaker
      { l with switches := l.switches.modify id ({ · with isOpen }) })).Coherent tight := by
  obtain ⟨hbuses, hswitches⟩ := h.inside vl _ hl
  refine h.same_inside hl ⟨hbuses, ?_⟩ ?_ (.layout fun _ hb => hb)
  · intro x s hs
    rw [ExtTreeMap.getElem?_modify] at hs
    split at hs
    next he =>
      have hx := LawfulEqCmp.eq_of_compare he
      subst hx
      obtain ⟨r, hr, rfl⟩ := Option.map_eq_some_iff.mp hs
      exact hswitches id r hr
    next => exact hswitches x s hs
  · intro x k
    simp only [Topology.Holds, ExtTreeMap.mem_modify]

/-- Exactly the ids of switches can be opened and closed. -/
theorem setSwitchOpen_cases (h : n.Coherent tight) (id : String) (isOpen : Bool) :
    (n.kind? id = some .switch ∧ ∃ m, setSwitchOpen id isOpen n = .ok () m ∧ m.Coherent tight ∧
        m.index = n.index) ∨
      n.kind? id ≠ some .switch ∧ Refuses (setSwitchOpen id isOpen) n := by
  unfold Refuses
  rw [setSwitchOpen_eq, ne_eq, kind?_eq_switch_iff h]
  cases hf : n.voltageLevels.values.find? (holdsSwitch id) with
  | none =>
    refine Or.inr ⟨fun ⟨vl, t, ht, hh⟩ => ?_, .switchNotFound id, rfl, by simp [Fault.kind]⟩
    obtain ⟨v, hv, rfl⟩ := inside?_eq_some_iff.mp ht
    have hm := List.find?_eq_none.mp hf v (mem_values_iff.mpr ⟨vl, hv⟩)
    exact hm (holdsSwitch_iff.mpr hh)
  | some v =>
    obtain ⟨vl, hv⟩ := mem_values_iff.mp (List.mem_of_find?_eq_some hf)
    have heq := h.voltageLevel_id vl v hv
    subst heq
    have hin : n.inside? v.id = some v.topology := inside?_eq_some_iff.mpr ⟨v, hv, rfl⟩
    have hh := holdsSwitch_iff.mp (List.find?_some hf)
    refine Or.inl ⟨⟨v.id, v.topology, hin, hh⟩, ?_⟩
    dsimp only [setSwitchOpenIn]
    cases ht : v.topology with
    | nodeBreaker w =>
      rw [ht] at hin
      exact ⟨_, rfl, coherent_setSwitchOpen_wiring h hin id isOpen, rfl⟩
    | busBreaker l =>
      rw [ht] at hin
      exact ⟨_, rfl, coherent_setSwitchOpen_layout h hin id isOpen, rfl⟩

end Edit

end Switchyard
