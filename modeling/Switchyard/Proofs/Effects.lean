import Switchyard.Proofs.History

namespace Switchyard

open Std Network

section Apply

variable {ε σ α β : Type} {s t : σ}

theorem bind_eq_ok {x : EStateM ε σ α} {f : α → EStateM ε σ β} {b : β} :
    (x >>= f) s = .ok b t ↔ ∃ a u, x s = .ok a u ∧ f a u = .ok b t := by
  rw [bind_apply]
  cases x s with
  | ok a u => simp
  | error e u => simp

theorem pure_eq_ok {a b : α} : (pure a : EStateM ε σ α) s = .ok b t ↔ a = b ∧ s = t := by
  rw [pure_apply, EStateM.Result.ok.injEq]

theorem map_eq_ok {f : α → β} {x : EStateM ε σ α} {b : β} :
    (f <$> x) s = .ok b t ↔ ∃ a, x s = .ok a t ∧ f a = b := by
  simp only [Functor.map, EStateM.map]
  cases x s with
  | ok a u =>
    simp only [EStateM.Result.ok.injEq]
    constructor
    · rintro ⟨rfl, rfl⟩
      exact ⟨a, ⟨rfl, rfl⟩, rfl⟩
    · rintro ⟨_, ⟨rfl, rfl⟩, rfl⟩
      exact ⟨rfl, rfl⟩
  | error e u => simp

theorem throw_eq_ok {e : ε} {a : α} : (throw e : EStateM ε σ α) s = .ok a t ↔ False := by
  simp only [throw_apply, reduceCtorEq]

theorem get_eq_ok {u : σ} : (get : EStateM ε σ σ) s = .ok u t ↔ s = u ∧ s = t :=
  pure_eq_ok

theorem modify_eq_ok {f : σ → σ} {a : PUnit} :
    (modify f : EStateM ε σ PUnit) s = .ok a t ↔ t = f s := by
  rw [modify_apply, EStateM.Result.ok.injEq, eq_comm (a := f s)]
  simp

end Apply

variable {n m : Network} {id vl : String}

/-- An edit that a change is made of keeps a network coherent. -/
theorem Change.coherent_of_ok {α : Type} {x : Edit α} {a : α} {n m : Network} (c : Change)
    (hx : c.perform.after n = x.after n) (h : n.Coherent False) (hok : x n = .ok a m) :
    m.Coherent False := by
  have hafter := c.coherent_after h False.elim
  rwa [hx, Edit.after, hok] at hafter

namespace Edit

theorem lookUp_eq_ok {α : Type} {find : Network → Except Fault α} {a : α} :
    lookUp find n = .ok a m ↔ find n = .ok a ∧ n = m := by
  rw [lookUp_apply]
  cases find n <;> simp

theorem wiring_eq_ok {w : Wiring} :
    wiring vl n = .ok w m ↔ n.inside? vl = some (.nodeBreaker w) ∧ n = m := by
  rw [wiring, lookUp_eq_ok, Network.wiring_eq_ok_iff]

theorem busLayout_eq_ok {l : BusLayout} :
    busLayout vl n = .ok l m ↔ n.inside? vl = some (.busBreaker l) ∧ n = m := by
  rw [busLayout, lookUp_eq_ok, Network.busLayout_eq_ok_iff]

theorem claimId_eq_ok {unique : Bool} {kind : ObjectKind} {given : String} {holder : Option String}
    (h : claimId id unique kind holder n = .ok given m) :
    given ∉ n.index ∧ (unique = false → given = id) ∧ m = n.register given ⟨kind, holder⟩ := by
  obtain ⟨other, hnew, hsame, hok⟩ | ⟨f, herror, -⟩ := claimId_cases n id unique kind holder
  · rw [hok] at h
    cases h
    exact ⟨hnew, hsame, rfl⟩
  · rw [herror] at h
    cases h

theorem checkTerminals_eq_ok {ts : List Terminal} (h : checkTerminals [] ts n = .ok () m) :
    m = n ∧ ∀ t ∈ ts, n.Free t := by
  obtain ⟨hfree, -, -, hok⟩ | ⟨f, herror, -⟩ := checkTerminals_cases n [] ts
  · rw [hok] at h
    cases h
    exact ⟨rfl, hfree⟩
  · rw [herror] at h
    cases h

theorem attachTerminals_eq_ok {side : Side} {node : Node} {rest : List (Side × Terminal)}
    (h : attachTerminals id ((side, ⟨vl, .node node⟩) :: rest) n = .ok () m) :
    ∃ w w', n.inside? vl = some (.nodeBreaker w) ∧ w.attach node ⟨id, side⟩ = .ok w' ∧
      attachTerminals id rest (n.setTopology vl (.nodeBreaker w')) = .ok () m := by
  simp only [attachTerminals, Terminal.node?, bind_eq_ok, wiring_eq_ok] at h
  obtain ⟨w, _, ⟨hw, rfl⟩, h⟩ := h
  cases ha : w.attach node ⟨id, side⟩ with
  | error other => simp only [ha, bind_eq_ok, throw_eq_ok, false_and, exists_false] at h
  | ok w' =>
    simp only [ha, setWiring, bind_eq_ok, modify_eq_ok] at h
    obtain ⟨_, _, rfl, h⟩ := h
    exact ⟨w, w', hw, ha, h⟩

theorem detachTerminals_eq_ok {node : Node} {rest : List Terminal}
    (h : detachTerminals (⟨vl, .node node⟩ :: rest) n = .ok () m) :
    ∃ w, n.inside? vl = some (.nodeBreaker w) ∧
      detachTerminals rest (n.setTopology vl (.nodeBreaker (w.detach node))) = .ok () m := by
  simp only [detachTerminals, Terminal.node?, bind_eq_ok, wiring_eq_ok, setWiring,
    modify_eq_ok] at h
  obtain ⟨w, _, ⟨hw, rfl⟩, _, _, rfl, h⟩ := h
  exact ⟨w, hw, h⟩

theorem rest_of_attachTerminals {ts : List (Side × Terminal)}
    (h : attachTerminals id ts n = .ok () m) : m = { n with voltageLevels := m.voltageLevels } := by
  induction ts generalizing n with
  | nil =>
    cases h
    rfl
  | cons x rest ih =>
    obtain ⟨side, vl, connection⟩ := x
    cases connection with
    | bus bus => exact ih h
    | node node =>
      obtain ⟨w, w', -, -, hrun⟩ := attachTerminals_eq_ok h
      have hrest := ih hrun
      exact hrest

theorem rest_of_detachTerminals {ts : List Terminal} (h : detachTerminals ts n = .ok () m) :
    m = { n with voltageLevels := m.voltageLevels } := by
  induction ts generalizing n with
  | nil =>
    cases h
    rfl
  | cons t rest ih =>
    obtain ⟨vl, connection⟩ := t
    cases connection with
    | bus bus => exact ih h
    | node node =>
      obtain ⟨w, -, hrun⟩ := detachTerminals_eq_ok h
      have hrest := ih hrun
      exact hrest

/-- A removed switch was inside the voltage level that the index tells. -/
theorem removeSwitch_eq_ok (h : removeSwitch id n = .ok () m) :
    ∃ vl u, n.index[id]? = some ⟨.switch, some vl⟩ ∧ m = (n.setTopology vl u).forget id ∧
      (∀ w, n.inside? vl = some (.nodeBreaker w) →
        ∃ w', w.removeSwitch? id = some w' ∧ u = .nodeBreaker w') ∧
      ∃ t, n.inside? vl = some t ∧ u.kind = t.kind ∧
        ∀ l, t = .busBreaker l → u = .busBreaker { l with switches := l.switches.erase id } := by
  by_cases hk : ∃ vl, n.index[id]? = some ⟨.switch, some vl⟩
  · obtain ⟨vl, hi⟩ := hk
    cases hv : n.voltageLevels[vl]? with
    | none =>
      simp only [removeSwitch, bind_apply, get_apply, hi, hv] at h
      cases h
    | some v =>
    have hin : n.inside? vl = some v.topology := inside?_eq_some_iff.mpr ⟨v, hv, rfl⟩
    simp only [removeSwitch, bind_apply, get_apply, hi, hv] at h
    cases ht : v.topology with
    | nodeBreaker w =>
      rw [ht] at hin
      simp only [ht] at h
      cases hw' : w.removeSwitch? id with
      | none =>
        simp only [hw'] at h
        cases h
      | some w' =>
        simp only [hw'] at h
        cases h
        refine ⟨vl, .nodeBreaker w', hi, rfl, fun u hu => ⟨w', ?_, rfl⟩, _, hin, rfl, by simp⟩
        rw [hin] at hu
        cases hu
        exact hw'
    | busBreaker l =>
      rw [ht] at hin
      simp only [ht] at h
      cases hl : l.switches.contains id with
      | false =>
        simp only [hl] at h
        cases h
      | true =>
        simp only [hl] at h
        cases h
        refine ⟨vl, .busBreaker _, hi, rfl, fun u hu => ?_, _, hin, rfl, fun k hk => ?_⟩
        · rw [hin] at hu
          cases hu
        · cases hk
          rfl
  · simp only [removeSwitch, bind_apply, get_apply] at h
    generalize n.index[id]? = found at h hk
    obtain _ | ⟨kind, _ | vl⟩ := found
    · cases h
    · cases kind <;> cases h
    · cases kind with
      | switch => exact absurd ⟨vl, rfl⟩ hk
      | _ => cases h

theorem removeConnections_eq_ok {a b : Node} {count : Nat}
    (h : removeConnections vl a b n = .ok count m) :
    ∃ w, n.inside? vl = some (.nodeBreaker w) ∧
      m = n.setTopology vl (.nodeBreaker (w.removeConnections a b)) := by
  simp only [removeConnections, bind_eq_ok, wiring_eq_ok, setWiring, modify_eq_ok, pure_eq_ok] at h
  obtain ⟨w, _, ⟨hw, rfl⟩, _, _, rfl, -, rfl⟩ := h
  exact ⟨w, hw, rfl⟩

theorem addConnection_eq_ok {a b : Node} (h : addConnection vl a b n = .ok () m) :
    ∃ w, n.inside? vl = some (.nodeBreaker w) ∧
      m = n.setTopology vl (.nodeBreaker (w.addConnection a b)) := by
  simp only [addConnection, bind_eq_ok, wiring_eq_ok] at h
  obtain ⟨w, _, ⟨hw, rfl⟩, h⟩ := h
  split at h
  · exact (throw_eq_ok.mp h).elim
  · exact ⟨w, hw, modify_eq_ok.mp h⟩

/-- A removed connectable was there. Its sides are detached last. -/
theorem removeConnectable_eq_ok (h : removeConnectable id n = .ok () m) :
    ∃ c, n.Keeps id c ∧
      detachTerminals (c.terminals.map (·.2)) ((n.take id c).forget id) = .ok () m := by
  simp only [removeConnectable, bind_apply, get_apply] at h
  cases hc : n.connectable? id with
  | none =>
    simp only [hc] at h
    cases h
  | some c =>
    refine ⟨c, keeps_of_connectable? hc, ?_⟩
    simp only [hc] at h
    cases c <;> exact h

/-- What enters a network hangs at free places, under an id not in use before. -/
theorem enter_eq_ok {ts : List (Side × Terminal)} {unique : Bool} {make : String → Connectable}
    {given : String} (hmake : (make given).entry = (make id).entry)
    (h : enter ts id unique make n = .ok given m) :
    given ∉ n.index ∧ (unique = false → given = id) ∧ (∀ x ∈ ts, n.Free x.2) ∧
      ∃ k, attachTerminals given ts (n.register given (make given).entry) = .ok () k ∧
        m = k.put given (make given) := by
  simp only [enter, bind_eq_ok, modify_eq_ok, pure_eq_ok] at h
  obtain ⟨_, _, hcheck, _, _, hclaim, _, k, hattach, _, _, rfl, rfl, rfl⟩ := h
  obtain ⟨rfl, hfree⟩ := checkTerminals_eq_ok hcheck
  obtain ⟨hid, hsame, rfl⟩ := claimId_eq_ok hclaim
  refine ⟨hid, hsame, fun x hx => hfree x.2 (List.mem_map_of_mem hx), k, ?_, rfl⟩
  rw [hmake]
  exact hattach

end Edit

/-- The switch that a draft leads to under an id. -/
def SwitchDraft.switch (d : SwitchDraft) (id : String) : Switch :=
  { id, name := d.name, voltageLevel := d.voltageLevel, kind := d.kind, node1 := d.node1,
    node2 := d.node2, isOpen := d.isOpen, retained := d.retained, fictitious := d.fictitious }

theorem SwitchDraft.create_eq_ok {d : SwitchDraft} {n m : Network} {id : String}
    (h : d.create n = .ok id m) :
    ∃ w, n.inside? d.voltageLevel = some (.nodeBreaker w) ∧ d.node1 ≠ d.node2 ∧ id ∉ n.index ∧
      m = (n.register id ⟨.switch, some d.voltageLevel⟩).setTopology d.voltageLevel
        (.nodeBreaker (w.addSwitch (d.switch id))) := by
  simp only [create, bind_eq_ok, Edit.wiring_eq_ok] at h
  obtain ⟨w, _, ⟨hw, rfl⟩, h⟩ := h
  split at h
  · simp only [bind_eq_ok, throw_eq_ok, false_and, exists_false] at h
  next hne =>
    simp only [bind_eq_ok, Edit.wiring_eq_ok, Edit.setWiring, modify_eq_ok, pure_eq_ok] at h
    obtain ⟨given, _, hclaim, w', _, ⟨hw', rfl⟩, _, _, rfl, rfl, rfl⟩ := h
    obtain ⟨hid, -, rfl⟩ := Edit.claimId_eq_ok hclaim
    have heq : w' = w := by
      have hin : n.inside? d.voltageLevel = some (.nodeBreaker w') := hw'
      simpa [hw] using hin.symm
    subst heq
    exact ⟨w', hw, hne, hid, rfl⟩

/-- The switch between buses that a draft leads to under an id. -/
def BusSwitchDraft.switch (d : BusSwitchDraft) (id : String) : BusSwitch :=
  { id, name := d.name, voltageLevel := d.voltageLevel, kind := d.kind, bus1 := d.bus1,
    bus2 := d.bus2, isOpen := d.isOpen, fictitious := d.fictitious }

/-- What the draft of a busbar section leads to under an id. -/
def BusbarSectionDraft.section (d : BusbarSectionDraft) (id : String) : Connectable :=
  .busbarSection
    { id, name := d.name, voltageLevel := d.voltageLevel, node := d.node, position := d.position }

theorem BusbarSectionDraft.create_eq (d : BusbarSectionDraft) :
    d.create = Edit.enter [(.one, .atNode d.voltageLevel d.node)] d.id d.unique d.section :=
  rfl

theorem BusbarSectionDraft.create_eq_ok {d : BusbarSectionDraft} {n m : Network} {id : String}
    (h : d.create n = .ok id m) :
    id ∉ n.index ∧ ∃ w w', n.inside? d.voltageLevel = some (.nodeBreaker w) ∧
      w.attach d.node ⟨id, .one⟩ = .ok w' ∧
      m = ((n.register id ⟨.busbarSection, some d.voltageLevel⟩).setTopology d.voltageLevel
        (.nodeBreaker w')).put id (d.section id) := by
  rw [create_eq] at h
  have hentered := fun hmake => Edit.enter_eq_ok hmake h
  obtain ⟨hid, -, -, k, hattach, rfl⟩ := hentered rfl
  obtain ⟨w, w', hw, hok, hrest⟩ := Edit.attachTerminals_eq_ok hattach
  cases hrest
  exact ⟨hid, w, w', hw, hok, rfl⟩

theorem BusDraft.create_eq_ok {d : BusDraft} {n m : Network} {id : String}
    (h : d.create n = .ok id m) :
    ∃ l, n.inside? d.voltageLevel = some (.busBreaker l) ∧ id ∉ n.index ∧
      m = (n.register id ⟨.bus, some d.voltageLevel⟩).setTopology d.voltageLevel
        (.busBreaker { l with buses := l.buses.insert id ⟨id, d.name, d.voltageLevel⟩ }) := by
  simp only [create, bind_eq_ok, Edit.busLayout_eq_ok, Edit.setBusLayout, modify_eq_ok,
    pure_eq_ok] at h
  obtain ⟨l, _, ⟨hl, rfl⟩, given, _, hclaim, l', _, ⟨hl', rfl⟩, _, _, rfl, rfl, rfl⟩ := h
  obtain ⟨hid, -, rfl⟩ := Edit.claimId_eq_ok hclaim
  have heq : l' = l := by
    have hin : n.inside? d.voltageLevel = some (.busBreaker l') := hl'
    simpa [hl] using hin.symm
  subst heq
  exact ⟨l', hl, hid, rfl⟩

theorem BusSwitchDraft.create_eq_ok {d : BusSwitchDraft} {n m : Network} {id : String}
    (h : d.create n = .ok id m) :
    ∃ l, n.inside? d.voltageLevel = some (.busBreaker l) ∧ d.bus1 ∈ l.buses ∧ d.bus2 ∈ l.buses ∧
      id ∉ n.index ∧
      m = (n.register id ⟨.switch, some d.voltageLevel⟩).setTopology d.voltageLevel
        (.busBreaker { l with switches := l.switches.insert id (d.switch id) }) := by
  simp only [create, bind_eq_ok, Edit.busLayout_eq_ok] at h
  obtain ⟨l, _, ⟨hl, rfl⟩, h⟩ := h
  cases h1 : l.buses.contains d.bus1 with
  | false => simp only [h1, Bool.not_false, if_true, bind_eq_ok, throw_eq_ok, false_and,
      exists_false] at h
  | true =>
  cases h2 : l.buses.contains d.bus2 with
  | false => simp only [h1, h2, Bool.not_true, Bool.not_false, Bool.false_eq_true, if_false,
      if_true, bind_eq_ok, throw_eq_ok, false_and, exists_false] at h
  | true =>
  simp only [h1, h2, Bool.not_true, Bool.false_eq_true, if_false, bind_eq_ok, Edit.busLayout_eq_ok,
    Edit.setBusLayout, modify_eq_ok, pure_eq_ok] at h
  obtain ⟨given, _, hclaim, l', _, ⟨hl', rfl⟩, _, _, rfl, rfl, rfl⟩ := h
  obtain ⟨hid, -, rfl⟩ := Edit.claimId_eq_ok hclaim
  have heq : l' = l := by
    have hin : n.inside? d.voltageLevel = some (.busBreaker l') := hl'
    simpa [hl] using hin.symm
  subst heq
  exact ⟨l', hl, by simpa using h1, by simpa using h2, hid, rfl⟩

theorem Edit.claimId_own {kind : ObjectKind} {holder : Option String} (h : id ∉ n.index) :
    claimId id false kind holder n = .ok id (n.register id ⟨kind, holder⟩) := by
  have hnone : n.index[id]? = none := ExtTreeMap.getElem?_eq_none h
  simp only [claimId, bind_apply, get_apply, hnone]
  rfl

theorem Substation.create_eq_ok {s : Substation} :
    s.create n = .ok id m ↔ id = s.id ∧ s.id ∉ n.index ∧ m = n.withSubstation s := by
  constructor
  · intro h
    simp only [create, bind_eq_ok, modify_eq_ok, pure_eq_ok] at h
    obtain ⟨given, _, hclaim, _, _, rfl, rfl, rfl⟩ := h
    obtain ⟨hid, hsame, rfl⟩ := Edit.claimId_eq_ok hclaim
    have heq := hsame rfl
    subst heq
    exact ⟨rfl, hid, rfl⟩
  · rintro ⟨rfl, hid, rfl⟩
    simp only [create, bind_eq_ok, modify_eq_ok, pure_eq_ok]
    exact ⟨s.id, _, Edit.claimId_own hid, (), _, rfl, rfl, rfl⟩

theorem VoltageLevelDraft.create_eq_ok {d : VoltageLevelDraft} :
    d.create n = .ok id m ↔ (∀ s, d.substation = some s → s ∈ n.substations) ∧ id = d.id ∧
      d.id ∉ n.index ∧ m = n.withLevel d.voltageLevel := by
  by_cases hs : ∀ s, d.substation = some s → s ∈ n.substations
  · rw [d.create_eq hs]
    constructor
    · intro h
      split at h
      next given _ hclaim =>
        obtain ⟨hid, hsame, rfl⟩ := Edit.claimId_eq_ok hclaim
        have heq := hsame rfl
        subst heq
        cases h
        exact ⟨hs, rfl, hid, rfl⟩
      next => cases h
    · rintro ⟨-, rfl, hid, rfl⟩
      rw [Edit.claimId_own hid]
      rfl
  · refine ⟨fun h => ?_, fun h => absurd h.1 hs⟩
    obtain ⟨s, he, hs⟩ : ∃ s, d.substation = some s ∧ s ∉ n.substations := by simpa using hs
    have hm : n.substations.contains s = false := Bool.eq_false_iff.mpr hs
    simp only [create, he, bind_eq_ok, get_eq_ok] at h
    obtain ⟨_, _, ⟨rfl, rfl⟩, h⟩ := h
    simp only [hm, Bool.not_false, if_true, bind_eq_ok, throw_eq_ok, false_and,
      exists_false] at h

theorem Edit.removeVoltageLevel_eq_ok (h : n.Coherent False) :
    removeVoltageLevel vl n = .ok () m ↔
      (vl ∈ n.voltageLevels ∧ n.equipmentIn vl = []) ∧ m = n.withoutLevel vl := by
  obtain ⟨hrun, -, hmem, hfree⟩ | ⟨hno, f, hrun, -⟩ := removeVoltageLevel_cases h vl
  · rw [hrun, EStateM.Result.ok.injEq]
    simp [hmem, hfree, eq_comm]
  · rw [hrun]
    simp [hno]

theorem Edit.removeSubstation_eq_ok (h : n.Coherent False) :
    removeSubstation id n = .ok () m ↔
      (id ∈ n.substations ∧ n.voltageLevelsIn id = []) ∧ m = n.withoutSubstation id := by
  obtain ⟨hrun, -, hmem, hfree⟩ | ⟨hno, f, hrun, -⟩ := removeSubstation_cases h id
  · rw [hrun, EStateM.Result.ok.injEq]
    simp [hmem, hfree, eq_comm]
  · rw [hrun]
    simp [hno]

end Switchyard
