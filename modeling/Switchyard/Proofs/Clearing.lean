import Switchyard.Proofs.Removal

namespace Switchyard

open Std Network

variable [Numbering] {tight : Prop} {n : Network}

theorem Network.mem_connectables_iff {c : Connectable} :
    c ∈ n.connectables ↔ ∃ x, n.Keeps x c := by
  simp only [connectables, List.mem_append, List.mem_map, mem_values_iff]
  cases c <;> simp [Keeps]

theorem Network.not_in_of_equipmentIn {vl : String} (h : n.equipmentIn vl = []) {x : String}
    {c : Connectable} (hc : n.Keeps x c) (hs : c.isBusbarSection = false) :
    ∀ side t, (side, t) ∈ c.terminals → t.voltageLevel ≠ vl := by
  intro side t ht he
  have hm : c ∈ n.equipmentIn vl := by
    simp only [equipmentIn, connectablesIn, List.mem_filter]
    refine ⟨⟨mem_connectables_iff.mpr ⟨x, hc⟩, ?_⟩, by simp [hs]⟩
    exact List.any_eq_true.mpr ⟨(side, t), ht, by simpa using he⟩
  rw [h] at hm
  cases hm

/-- The ids of what lies inside a voltage level. -/
def Network.insideIds (n : Network) (v : VoltageLevel) (vl : String) : List String :=
  (n.busbarSectionsIn vl).map (·.id) ++
    match v.topology with
    | .nodeBreaker w => w.switches.keys
    | .busBreaker l => l.switches.keys ++ l.buses.keys

theorem Network.Coherent.mem_insideIds (h : n.Coherent tight) {vl : String} {v : VoltageLevel}
    (hv : n.voltageLevels[vl]? = some v) {x : String} :
    x ∈ n.insideIds v vl ↔ ∃ kind, n.Stores x ⟨kind, some vl⟩ := by
  have hin : n.inside? vl = some v.topology := inside?_eq_some_iff.mpr ⟨v, hv, rfl⟩
  have hheld : (x ∈ match v.topology with
      | .nodeBreaker w => w.switches.keys
      | .busBreaker l => l.switches.keys ++ l.buses.keys) ↔ ∃ kind, v.topology.Holds x kind := by
    cases v.topology with
    | nodeBreaker w => simp [Topology.Holds]
    | busBreaker l =>
      simp only [Topology.Holds, List.mem_append, ExtTreeMap.mem_keys]
      constructor
      · intro hx
        rcases hx with hs | hb
        · exact ⟨_, Or.inl ⟨rfl, hs⟩⟩
        · exact ⟨_, Or.inr ⟨rfl, hb⟩⟩
      · intro hx
        obtain ⟨kind, ⟨-, hs⟩ | ⟨-, hb⟩⟩ := hx
        · exact Or.inl hs
        · exact Or.inr hb
  rw [insideIds, List.mem_append, hheld]
  simp only [busbarSectionsIn, List.mem_map, List.mem_filter, mem_values_iff, beq_iff_eq]
  constructor
  · intro hx
    rcases hx with ⟨b, ⟨⟨y, hb⟩, rfl⟩, rfl⟩ | ⟨kind, hh⟩
    · have heq : b.id = y := h.connectable_id y (.busbarSection b) hb
      subst heq
      exact ⟨_, .connectable (c := .busbarSection b) hb⟩
    · exact ⟨kind, .inside hin hh⟩
  · intro hx
    obtain ⟨kind, hs⟩ := hx
    rcases stores_iff.mp hs with ⟨-, he⟩ | ⟨-, he⟩ | ⟨vl', t, k, ht, hh, he⟩ | ⟨c, hc, he⟩
    · cases he
    · cases he
    · cases he
      exact Or.inr ⟨kind, Option.some.inj (ht.symm.trans hin) ▸ hh⟩
    · cases c with
      | busbarSection b =>
        cases he
        exact Or.inl ⟨b, ⟨⟨x, hc⟩, rfl⟩, h.connectable_id x (.busbarSection b) hc⟩
      | injection i => cases he
      | branch b => cases he
      | transformer t => cases he

namespace Network

/-- The network without a voltage level and what lies inside. -/
def withoutLevel (n : Network) (id : String) : Network :=
  { n with
    busbarSections := n.busbarSections.filter fun _ b => b.voltageLevel != id
    voltageLevels := n.voltageLevels.erase id
    index := n.index.filter fun x e => x != id && e.voltageLevel != some id }

variable {id : String}

theorem getElem?_index_withoutLevel {x : String} {e : IndexEntry} :
    (n.withoutLevel id).index[x]? = some e ↔
      n.index[x]? = some e ∧ x ≠ id ∧ e.voltageLevel ≠ some id := by
  rw [withoutLevel, ExtTreeMap.getElem?_filter']
  simp [Option.filter_eq_some_iff]

theorem getElem?_voltageLevels_withoutLevel {x : String} {v : VoltageLevel} :
    (n.withoutLevel id).voltageLevels[x]? = some v ↔ n.voltageLevels[x]? = some v ∧ x ≠ id := by
  simp only [withoutLevel, ExtTreeMap.getElem?_erase, Std.compare_eq_iff_eq]
  grind

theorem inside?_withoutLevel {x : String} {t : Topology} :
    (n.withoutLevel id).inside? x = some t ↔ n.inside? x = some t ∧ x ≠ id := by
  simp only [inside?_eq_some_iff, getElem?_voltageLevels_withoutLevel]
  grind

theorem keeps_withoutLevel {x : String} {c : Connectable} :
    (n.withoutLevel id).Keeps x c ↔ n.Keeps x c ∧ c.holder ≠ some id := by
  cases c <;> simp [withoutLevel, Keeps, Connectable.holder, Option.filter_eq_some_iff]

omit [Numbering] in
theorem voltageLevel_of_holder {c : Connectable} (hc : c.holder = some id) {side : Side}
    {t : Terminal} (ht : (side, t) ∈ c.terminals) : t.voltageLevel = id := by
  cases c with
  | busbarSection b =>
    have hb : side = .one ∧ t = b.terminal := by
      simpa [Connectable.terminals] using ht
    rw [hb.2]
    exact Option.some.inj hc
  | injection i => cases hc
  | branch b => cases hc
  | transformer u => cases hc

/-- Without equipment in the voltage level, what is still attached is attached elsewhere. -/
theorem attaches_withoutLevel (hfree : n.equipmentIn id = []) {a : Attachment} {t : Terminal} :
    (n.withoutLevel id).Attaches a t ↔ n.Attaches a t ∧ t.voltageLevel ≠ id := by
  constructor
  · intro hx
    obtain ⟨c, hc, ht⟩ := hx
    obtain ⟨hc, hholder⟩ := keeps_withoutLevel.mp hc
    refine ⟨⟨c, hc, ht⟩, ?_⟩
    cases c with
    | busbarSection b =>
      have hb : a.side = .one ∧ t = b.terminal := by
        simpa [Connectable.terminals] using ht
      rw [hb.2]
      exact fun he => hholder (congrArg some he)
    | injection i => exact not_in_of_equipmentIn hfree hc rfl _ t ht
    | branch b => exact not_in_of_equipmentIn hfree hc rfl _ t ht
    | transformer u => exact not_in_of_equipmentIn hfree hc rfl _ t ht
  · intro hx
    obtain ⟨⟨c, hc, ht⟩, hne⟩ := hx
    have hholder : c.holder ≠ some id := fun hh => hne (voltageLevel_of_holder hh ht)
    exact ⟨c, keeps_withoutLevel.mpr ⟨hc, hholder⟩, ht⟩

theorem Coherent.stores_withoutLevel (h : n.Coherent tight) (hid : id ∈ n.voltageLevels)
    {x : String} {e : IndexEntry} :
    (n.withoutLevel id).Stores x e ↔ n.Stores x e ∧ x ≠ id ∧ e.voltageLevel ≠ some id := by
  have hlevels : ∀ x, x ∈ (n.withoutLevel id).voltageLevels ↔ x ∈ n.voltageLevels ∧ x ≠ id := by
    intro x
    simp only [mem_iff_exists_getElem?, getElem?_voltageLevels_withoutLevel, exists_and_right]
  constructor
  · intro hs
    have hold : n.Stores x e ∧ e.voltageLevel ≠ some id := by
      cases hs with
      | substation hs => exact ⟨.substation hs, by simp⟩
      | voltageLevel hv => exact ⟨.voltageLevel ((hlevels x).mp hv).1, by simp⟩
      | inside ht hh =>
        obtain ⟨ht, hne⟩ := inside?_withoutLevel.mp ht
        exact ⟨.inside ht hh, fun he => hne (Option.some.inj he)⟩
      | connectable hc =>
        obtain ⟨hc, hvl⟩ := keeps_withoutLevel.mp hc
        exact ⟨.connectable hc, hvl⟩
    refine ⟨hold.1, fun hx => ?_, hold.2⟩
    -- Only the voltage level itself has the id, and it is gone.
    have he : e = ⟨.voltageLevel, none⟩ :=
      h.entry_unique (hx ▸ hold.1) (.voltageLevel hid)
    rcases stores_iff.mp hs with ⟨-, hk⟩ | ⟨hv, -⟩ | ⟨_, _, _, -, -, hk⟩ | ⟨c, -, hk⟩
    · rw [he] at hk
      cases hk
    · exact ((hlevels x).mp hv).2 hx
    · rw [he] at hk
      cases hk
    · rw [he] at hk
      cases c <;> cases hk
  · intro hx
    obtain ⟨hs, hx, hvl⟩ := hx
    cases hs with
    | substation hs => exact .substation hs
    | voltageLevel hv => exact .voltageLevel ((hlevels x).mpr ⟨hv, hx⟩)
    | inside ht hh =>
      exact .inside (inside?_withoutLevel.mpr ⟨ht, fun he => hvl (congrArg some he)⟩) hh
    | connectable hc => exact .connectable (keeps_withoutLevel.mpr ⟨hc, hvl⟩)

/-- A voltage level without equipment leaves the network with what lies inside. -/
theorem Coherent.withoutLevel (h : n.Coherent tight) (hid : id ∈ n.voltageLevels)
    (hfree : n.equipmentIn id = []) : (n.withoutLevel id).Coherent tight where
  index_iff := by
    intro x e
    rw [getElem?_index_withoutLevel, h.index_iff, h.stores_withoutLevel hid]
  inside := fun x t ht => h.inside x t (inside?_withoutLevel.mp ht).1
  holdsAt_iff := by
    intro x node a
    rw [attaches_withoutLevel hfree, ← h.holdsAt_iff]
    simp only [HoldsAt, inside?_withoutLevel, Terminal.atNode]
    grind
  hasBus := by
    intro a x bus ha
    obtain ⟨ha, hne⟩ := (attaches_withoutLevel hfree).mp ha
    obtain ⟨l, hl, hb⟩ := h.hasBus a x bus ha
    exact ⟨l, inside?_withoutLevel.mpr ⟨hl, hne⟩, hb⟩
  substation_mem := by
    intro x v s hv hs
    exact h.substation_mem x v s (getElem?_voltageLevels_withoutLevel.mp hv).1 hs
  substation_id := h.substation_id
  voltageLevel_id := fun x v hv =>
    h.voltageLevel_id x v (getElem?_voltageLevels_withoutLevel.mp hv).1
  connectable_id := fun x c hc => h.connectable_id x c (keeps_withoutLevel.mp hc).1

end Network

def Network.withoutSubstation (n : Network) (id : String) : Network :=
  { n with substations := n.substations.erase id, index := n.index.erase id }

namespace Network

variable {id : String}

theorem keeps_withoutSubstation {x : String} {c : Connectable} :
    (n.withoutSubstation id).Keeps x c ↔ n.Keeps x c := by
  cases c <;> rfl

theorem inside?_withoutSubstation (n : Network) (id vl : String) :
    (n.withoutSubstation id).inside? vl = n.inside? vl :=
  rfl

theorem getElem?_substations_withoutSubstation {x : String} {s : Substation} :
    (n.withoutSubstation id).substations[x]? = some s ↔ n.substations[x]? = some s ∧ x ≠ id := by
  simp only [withoutSubstation, ExtTreeMap.getElem?_erase, Std.compare_eq_iff_eq]
  grind

/-- Only the substation itself has the id. -/
theorem Coherent.stores_withoutSubstation (h : n.Coherent tight) (hid : id ∈ n.substations)
    {x : String} {e : IndexEntry} :
    (n.withoutSubstation id).Stores x e ↔ n.Stores x e ∧ x ≠ id := by
  have hsubstations : (n.withoutSubstation id).substations = n.substations.erase id := rfl
  have hlevels : (n.withoutSubstation id).voltageLevels = n.voltageLevels := rfl
  have hown : ∀ e, n.Stores id e → e = ⟨.substation, none⟩ := fun e hs =>
    h.entry_unique hs (.substation hid)
  have hlevel : id ∉ n.voltageLevels := fun hv => by cases hown _ (.voltageLevel hv)
  have hin : ∀ vl t kind, n.inside? vl = some t → ¬t.Holds id kind := by
    intro vl t kind ht hh
    cases hown _ (.inside ht hh)
  have hno : ∀ c, ¬n.Keeps id c := fun c hc => by
    have he := hown _ (.connectable hc)
    cases c <;> cases he
  simp only [stores_iff, hsubstations, hlevels, inside?_withoutSubstation,
    keeps_withoutSubstation, ExtTreeMap.mem_erase, ne_eq, Std.compare_eq_iff_eq]
  grind

theorem voltageLevelsIn_eq_nil_iff :
    n.voltageLevelsIn id = [] ↔ ∀ vl v, n.shell? vl = some v → v.substation ≠ some id := by
  simp only [voltageLevelsIn, List.filter_eq_nil_iff, mem_values_iff, shell?,
    Option.map_eq_some_iff, beq_iff_eq]
  constructor
  · rintro h vl _ ⟨v, hv, rfl⟩
    exact h v ⟨vl, hv⟩
  · rintro h v ⟨vl, hv⟩
    exact h vl v.shell ⟨v, hv, rfl⟩

theorem Coherent.withoutSubstation (h : n.Coherent tight) (hid : id ∈ n.substations)
    (hfree : n.voltageLevelsIn id = []) : (n.withoutSubstation id).Coherent tight where
  index_iff := index_iff_erase h.index_iff fun _ _ => h.stores_withoutSubstation hid
  inside := h.inside
  holdsAt_iff := by
    simpa only [HoldsAt, Attaches, inside?_withoutSubstation, keeps_withoutSubstation] using
      h.holdsAt_iff
  hasBus := by
    simpa only [HasBus, Attaches, inside?_withoutSubstation, keeps_withoutSubstation] using
      h.hasBus
  substation_mem := by
    intro vl v s hv hs
    have hv : n.voltageLevels[vl]? = some v := hv
    have hshell : n.shell? vl = some v.shell := by rw [shell?, hv, Option.map_some]
    have hne : s ≠ id := fun he => voltageLevelsIn_eq_nil_iff.mp hfree vl _ hshell (he ▸ hs)
    obtain ⟨t, ht⟩ := mem_iff_exists_getElem?.mp (h.substation_mem vl v s hv hs)
    exact mem_iff_exists_getElem?.mpr ⟨t, getElem?_substations_withoutSubstation.mpr ⟨ht, hne⟩⟩
  substation_id := fun x s hs =>
    h.substation_id x s (getElem?_substations_withoutSubstation.mp hs).1
  voltageLevel_id := h.voltageLevel_id
  connectable_id := fun x c hc => h.connectable_id x c (keeps_withoutSubstation.mp hc)

end Network

namespace Edit

theorem removeVoltageLevel_cases (h : n.Coherent tight) (id : String) :
    removeVoltageLevel id n = .ok () (n.withoutLevel id) ∧ (n.withoutLevel id).Coherent tight ∧
        id ∈ n.voltageLevels ∧ n.equipmentIn id = [] ∨
      ¬(id ∈ n.voltageLevels ∧ n.equipmentIn id = []) ∧ Refuses (removeVoltageLevel id) n := by
  cases hv : n.voltageLevels[id]? with
  | none =>
    have hid : id ∉ n.voltageLevels := by simpa using hv
    refine Or.inr ⟨fun hx => hid hx.1, .voltageLevelNotFound id, ?_, by simp [Fault.kind]⟩
    simp only [removeVoltageLevel, bind_apply, get_apply, hv]
    rfl
  | some v =>
    have hid : id ∈ n.voltageLevels := mem_iff_exists_getElem?.mpr ⟨v, hv⟩
    cases he : (n.equipmentIn id).isEmpty with
    | false =>
      have hused : n.equipmentIn id ≠ [] := by simpa using he
      refine Or.inr ⟨fun hx => hused hx.2,
        .voltageLevelInUse id ((n.equipmentIn id).map (·.id)), ?_, by simp [Fault.kind]⟩
      simp only [removeVoltageLevel, bind_apply, get_apply, hv, he]
      rfl
    | true =>
      have hfilter : n.index.filter (fun x _ => x != id && !(n.insideIds v id).contains x) =
          n.index.filter fun x e => x != id && e.voltageLevel != some id := by
        apply ExtTreeMap.ext_getElem?
        intro x
        rw [ExtTreeMap.getElem?_filter', ExtTreeMap.getElem?_filter']
        cases hx : n.index[x]? with
        | none => rfl
        | some e =>
          have hs := (h.index_iff x e).mp hx
          have hiff : x ∈ n.insideIds v id ↔ e.voltageLevel = some id := by
            rw [h.mem_insideIds hv]
            constructor
            · intro hx
              obtain ⟨kind, hk⟩ := hx
              rw [h.entry_unique hs hk]
            · intro hvl
              obtain ⟨kind, holder⟩ := e
              have heq := hvl
              subst heq
              exact ⟨kind, hs⟩
          by_cases hm : x ∈ n.insideIds v id
          · simp [Option.filter_some, hm, hiff.mp hm]
          · have hvl : e.voltageLevel ≠ some id := fun hvl => hm (hiff.mpr hvl)
            simp [Option.filter_some, hm, bne_iff_ne.mpr hvl]
      have hfree : n.equipmentIn id = [] := by simpa using he
      refine Or.inl ⟨?_, h.withoutLevel hid hfree, hid, hfree⟩
      rw [withoutLevel, ← hfilter]
      simp only [removeVoltageLevel, bind_apply, get_apply, hv, he]
      rfl

theorem removeSubstation_cases (h : n.Coherent tight) (id : String) :
    removeSubstation id n = .ok () (n.withoutSubstation id) ∧
        (n.withoutSubstation id).Coherent tight ∧ id ∈ n.substations ∧
        n.voltageLevelsIn id = [] ∨
      ¬(id ∈ n.substations ∧ n.voltageLevelsIn id = []) ∧ Refuses (removeSubstation id) n := by
  cases hs : n.substations.contains id with
  | false =>
    have hid : id ∉ n.substations := Bool.eq_false_iff.mp hs
    refine Or.inr ⟨fun hx => hid hx.1, .substationNotFound id, ?_, by simp [Fault.kind]⟩
    simp only [removeSubstation, bind_apply, get_apply, hs]
    rfl
  | true =>
    cases he : (n.voltageLevelsIn id).isEmpty with
    | false =>
      have hused : n.voltageLevelsIn id ≠ [] := by simpa using he
      refine Or.inr ⟨fun hx => hused hx.2, .substationInUse id, ?_, by simp [Fault.kind]⟩
      simp only [removeSubstation, bind_apply, get_apply, hs, he]
      rfl
    | true =>
      have hfree : n.voltageLevelsIn id = [] := by simpa using he
      refine Or.inl ⟨?_, h.withoutSubstation hs hfree, hs, hfree⟩
      simp only [removeSubstation, bind_apply, get_apply, hs, he]
      rfl

end Edit

end Switchyard
