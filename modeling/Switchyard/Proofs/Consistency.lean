import Switchyard.Proofs.History

namespace Switchyard

open Std

/-- The buses and switches inside a voltage level. -/
def VoltageLevel.contents (v : VoltageLevel) : List Object :=
  match v.topology with
  | .nodeBreaker w => w.switches.values.map .switch
  | .busBreaker l => l.buses.values.map .bus ++ l.switches.values.map .busSwitch

theorem VoltageLevel.kind_of_mem_contents {v : VoltageLevel} {o : Object} (ho : o ∈ v.contents) :
    o.kind = .bus ∨ o.kind = .switch := by
  unfold contents at ho
  split at ho
  next =>
    obtain ⟨s, -, rfl⟩ := List.mem_map.mp ho
    exact Or.inr rfl
  next =>
    rcases List.mem_append.mp ho with ho | ho
    · obtain ⟨b, -, rfl⟩ := List.mem_map.mp ho
      exact Or.inl rfl
    · obtain ⟨s, -, rfl⟩ := List.mem_map.mp ho
      exact Or.inr rfl

namespace Network

/-- Everything that is stored. -/
def objects (n : Network) : List Object :=
  n.substations.values.map .substation ++ n.voltageLevels.values.map .voltageLevel ++
    n.voltageLevels.values.flatMap (·.contents) ++ n.connectables.map .connectable

variable {tight : Prop} {n : Network} {v : VoltageLevel} {o : Object}

theorem Coherent.has_of_mem_contents (h : n.Coherent tight) (hv : n.voltageLevels[v.id]? = some v)
    (ho : o ∈ v.contents) : n.Has o ∧ o.entry.voltageLevel = some v.id := by
  have hin : n.inside? v.id = some v.topology := inside?_eq_some_iff.mpr ⟨v, hv, rfl⟩
  have hfirm := h.inside v.id _ hin
  unfold VoltageLevel.contents at ho
  cases ht : v.topology with
  | nodeBreaker w =>
    rw [ht] at ho hin hfirm
    obtain ⟨s, hs, rfl⟩ := List.mem_map.mp ho
    obtain ⟨id, hs⟩ := mem_values_iff.mp hs
    have heq := (hfirm.1.1.switch_edge id s hs).1
    subst heq
    have hvl : s.voltageLevel = v.id := hfirm.2 _ s hs
    exact ⟨⟨w, hvl ▸ hin, hs⟩, congrArg some hvl⟩
  | busBreaker l =>
    rw [ht] at ho hin hfirm
    rcases List.mem_append.mp ho with ho | ho
    · obtain ⟨b, hb, rfl⟩ := List.mem_map.mp ho
      obtain ⟨id, hb⟩ := mem_values_iff.mp hb
      obtain ⟨rfl, hvl⟩ := hfirm.1 id b hb
      exact ⟨⟨l, hvl ▸ hin, hb⟩, congrArg some hvl⟩
    · obtain ⟨s, hs, rfl⟩ := List.mem_map.mp ho
      obtain ⟨id, hs⟩ := mem_values_iff.mp hs
      obtain ⟨rfl, hvl, -⟩ := hfirm.2 id s hs
      exact ⟨⟨l, hvl ▸ hin, hs⟩, congrArg some hvl⟩

theorem mem_objects_of_has (ho : n.Has o) : o ∈ n.objects := by
  simp only [objects, List.mem_append, List.mem_map, List.mem_flatMap]
  cases o with
  | substation s => exact Or.inl (Or.inl (Or.inl ⟨s, mem_values_iff.mpr ⟨_, ho⟩, rfl⟩))
  | voltageLevel v => exact Or.inl (Or.inl (Or.inr ⟨v, mem_values_iff.mpr ⟨_, ho⟩, rfl⟩))
  | bus b =>
    obtain ⟨l, hl, hb⟩ := ho
    obtain ⟨v, hv, ht⟩ := inside?_eq_some_iff.mp hl
    refine Or.inl (Or.inr ⟨v, mem_values_iff.mpr ⟨_, hv⟩, ?_⟩)
    rw [VoltageLevel.contents, ht]
    exact List.mem_append_left _ (List.mem_map_of_mem (mem_values_iff.mpr ⟨_, hb⟩))
  | switch s =>
    obtain ⟨w, hw, hs⟩ := ho
    obtain ⟨v, hv, ht⟩ := inside?_eq_some_iff.mp hw
    refine Or.inl (Or.inr ⟨v, mem_values_iff.mpr ⟨_, hv⟩, ?_⟩)
    rw [VoltageLevel.contents, ht]
    exact List.mem_map_of_mem (mem_values_iff.mpr ⟨_, hs⟩)
  | busSwitch s =>
    obtain ⟨l, hl, hs⟩ := ho
    obtain ⟨v, hv, ht⟩ := inside?_eq_some_iff.mp hl
    refine Or.inl (Or.inr ⟨v, mem_values_iff.mpr ⟨_, hv⟩, ?_⟩)
    rw [VoltageLevel.contents, ht]
    exact List.mem_append_right _ (List.mem_map_of_mem (mem_values_iff.mpr ⟨_, hs⟩))
  | connectable c => exact Or.inr ⟨c, mem_connectables_iff.mpr ⟨_, ho⟩, rfl⟩

theorem Coherent.mem_objects_iff (h : n.Coherent tight) : o ∈ n.objects ↔ n.Has o := by
  refine ⟨fun ho => ?_, mem_objects_of_has⟩
  simp only [objects, List.mem_append, List.mem_map, List.mem_flatMap] at ho
  obtain ((⟨s, hs, rfl⟩ | ⟨v, hv, rfl⟩) | ⟨v, hv, ho⟩) | ⟨c, hc, rfl⟩ := ho
  · obtain ⟨id, hs⟩ := mem_values_iff.mp hs
    have heq := h.substation_id id s hs
    subst heq
    exact hs
  · obtain ⟨id, hv⟩ := mem_values_iff.mp hv
    have heq := h.voltageLevel_id id v hv
    subst heq
    exact hv
  · obtain ⟨id, hv⟩ := mem_values_iff.mp hv
    have heq := h.voltageLevel_id id v hv
    subst heq
    exact (h.has_of_mem_contents hv ho).1
  · obtain ⟨id, hc⟩ := mem_connectables_iff.mp hc
    have heq := h.connectable_id id c hc
    subst heq
    exact hc

theorem Coherent.nodup_contents (h : n.Coherent tight) (hv : n.voltageLevels[v.id]? = some v) :
    v.contents.Nodup := by
  have hfirm := h.inside v.id _ (inside?_eq_some_iff.mpr ⟨v, hv, rfl⟩)
  unfold VoltageLevel.contents
  cases ht : v.topology with
  | nodeBreaker w =>
    rw [ht] at hfirm
    exact (nodup_values Switch.id fun id s hs => (hfirm.1.1.switch_edge id s hs).1).map
      fun _ _ => Object.switch.inj
  | busBreaker l =>
    rw [ht] at hfirm
    refine List.Nodup.append ?_ ?_ ?_
    · exact (nodup_values Bus.id fun id b hb => (hfirm.1 id b hb).1).map fun _ _ => Object.bus.inj
    · exact (nodup_values BusSwitch.id fun id s hs => (hfirm.2 id s hs).1).map
        fun _ _ => Object.busSwitch.inj
    · intro o hb hs
      obtain ⟨b, -, rfl⟩ := List.mem_map.mp hb
      obtain ⟨s, -, he⟩ := List.mem_map.mp hs
      cases he

theorem Coherent.nodup_connectables (h : n.Coherent tight) : n.connectables.Nodup := by
  refine List.Nodup.append (List.Nodup.append (List.Nodup.append ?_ ?_ ?_) ?_ ?_) ?_ ?_
  · exact (nodup_values BusbarSection.id fun id b => h.connectable_id id (.busbarSection b)).map
      fun _ _ => Connectable.busbarSection.inj
  · exact (nodup_values Injection.id fun id i => h.connectable_id id (.injection i)).map
      fun _ _ => Connectable.injection.inj
  · simp [List.Disjoint]
  · exact (nodup_values Branch.id fun id b => h.connectable_id id (.branch b)).map
      fun _ _ => Connectable.branch.inj
  · simp only [List.Disjoint, List.mem_append, List.mem_map]
    rintro _ (⟨b, -, rfl⟩ | ⟨i, -, rfl⟩) ⟨x, -, hx⟩ <;> cases hx
  · exact (nodup_values ThreeWindingsTransformer.id fun id t =>
      h.connectable_id id (.transformer t)).map fun _ _ => Connectable.transformer.inj
  · simp only [List.Disjoint, List.mem_append, List.mem_map]
    rintro _ ((⟨b, -, rfl⟩ | ⟨i, -, rfl⟩) | ⟨l, -, rfl⟩) ⟨x, -, hx⟩ <;> cases hx

theorem Coherent.nodup_objects (h : n.Coherent tight) : n.objects.Nodup := by
  have hlevels : n.voltageLevels.values.Nodup := nodup_values VoltageLevel.id h.voltageLevel_id
  have hstored : ∀ v ∈ n.voltageLevels.values, n.voltageLevels[v.id]? = some v := by
    intro v hv
    obtain ⟨id, hv⟩ := mem_values_iff.mp hv
    have heq := h.voltageLevel_id id v hv
    subst heq
    exact hv
  have hinside : (n.voltageLevels.values.flatMap (·.contents)).Nodup := by
    refine List.nodup_flatMap.mpr ⟨fun v hv => h.nodup_contents (hstored v hv), ?_⟩
    refine List.Pairwise.imp_of_mem (fun {v w} hv hw hne => ?_) hlevels
    intro o ho ho'
    -- An object tells the voltage level that it lies inside of.
    have hid : some v.id = some w.id :=
      (h.has_of_mem_contents (hstored v hv) ho).2.symm.trans
        (h.has_of_mem_contents (hstored w hw) ho').2
    have hvw : some v = some w :=
      (hstored v hv).symm.trans ((Option.some.inj hid ▸ hstored w hw))
    exact hne (Option.some.inj hvw)
  have hkind : ∀ o ∈ n.voltageLevels.values.flatMap (·.contents),
      o.kind = .bus ∨ o.kind = .switch := by
    intro o ho
    obtain ⟨v, -, ho⟩ := List.mem_flatMap.mp ho
    exact v.kind_of_mem_contents ho
  refine List.Nodup.append (List.Nodup.append (List.Nodup.append ?_ ?_ ?_) hinside ?_) ?_ ?_
  · exact (nodup_values Substation.id h.substation_id).map fun _ _ => Object.substation.inj
  · exact hlevels.map fun _ _ => Object.voltageLevel.inj
  · simp [List.Disjoint]
  · intro o ho hi
    rcases List.mem_append.mp ho with ho | ho
    · obtain ⟨s, -, rfl⟩ := List.mem_map.mp ho
      rcases hkind _ hi with hk | hk <;> cases hk
    · obtain ⟨v, -, rfl⟩ := List.mem_map.mp ho
      rcases hkind _ hi with hk | hk <;> cases hk
  · exact h.nodup_connectables.map fun _ _ => Object.connectable.inj
  · intro o ho hc
    obtain ⟨c, -, rfl⟩ := List.mem_map.mp hc
    rcases List.mem_append.mp ho with ho | ho
    · simp at ho
    · rcases hkind _ ho with hk | hk <;> cases c <;> cases hk

theorem Coherent.nodup_ids (h : n.Coherent tight) : (n.objects.map (·.id)).Nodup := by
  refine h.nodup_objects.map_on fun o ho p hp hid => ?_
  have hfound := h.find?_of_has (h.mem_objects_iff.mp ho)
  rw [hid, h.find?_of_has (h.mem_objects_iff.mp hp)] at hfound
  exact (Option.some.inj hfound).symm

theorem Coherent.contains_iff (h : n.Coherent tight) {id : String} :
    n.contains id ↔ id ∈ n.objects.map (·.id) := by
  rw [contains, ExtTreeMap.contains_iff_mem, mem_iff_exists_getElem?, List.mem_map]
  constructor
  · intro hx
    obtain ⟨entry, hi⟩ := hx
    obtain ⟨o, ho, rfl, -⟩ := h.has_of_stores ((h.index_iff _ _).mp hi)
    exact ⟨o, mem_objects_of_has ho, rfl⟩
  · intro hx
    obtain ⟨o, ho, rfl⟩ := hx
    exact ⟨o.entry, (h.index_iff _ _).mpr (h.mem_objects_iff.mp ho).stores⟩

theorem Coherent.kind?_of_has (h : n.Coherent tight) (ho : n.Has o) :
    n.kind? o.id = some o.kind := by
  rw [kind?, (h.index_iff _ _).mpr ho.stores, Option.map_some, o.kind_entry]

/-- The index, the stores, the terminals of nodes and the names of buses and
substations tell of the same network. -/
structure Consistent (n : Network) : Prop where
  nodup_ids : (n.objects.map (·.id)).Nodup
  contains_iff : ∀ id, n.contains id ↔ id ∈ n.objects.map (·.id)
  found : ∀ id, n.contains id → ∃ o ∈ n.objects,
    n.find? id = some o ∧ o.id = id ∧ n.kind? id = some o.kind
  switchable_iff : ∀ id isOpen,
    (∃ m, Edit.setSwitchOpen id isOpen n = .ok () m) ↔ n.kind? id = some .switch
  terminal_iff : ∀ vl node c side,
    (∃ w, n.wiring vl = .ok w ∧ w.terminals[node]? = some ⟨c, side⟩) ↔
      ∃ x, n.connectable? c = some x ∧ x.terminal? side = some (.atNode vl node)
  busbar_attached : ∀ b ∈ n.busbarSections.values,
    ∃ w, n.wiring b.voltageLevel = .ok w ∧ w.terminals[b.node]? = some ⟨b.id, .one⟩
  bus_of_terminal : ∀ c ∈ n.connectables, ∀ side vl bus,
    c.terminal? side = some (.atBus vl bus) → ∃ l, n.busLayout vl = .ok l ∧ bus ∈ l.buses
  bus_of_switch : ∀ vl l, n.busLayout vl = .ok l →
    ∀ s ∈ l.switches.values, s.bus1 ∈ l.buses ∧ s.bus2 ∈ l.buses
  substation_mem : ∀ v ∈ n.voltageLevels.values, ∀ s, v.substation = some s → s ∈ n.substations

theorem Coherent.switchable_iff (h : n.Coherent tight) (id : String) (isOpen : Bool) :
    (∃ m, Edit.setSwitchOpen id isOpen n = .ok () m) ↔ n.kind? id = some .switch := by
  obtain ⟨hk, m, hok, -⟩ | ⟨hk, f, hr, -⟩ := Edit.setSwitchOpen_cases h id isOpen
  · exact ⟨fun _ => hk, fun _ => ⟨m, hok⟩⟩
  · refine ⟨fun ⟨m, hok⟩ => ?_, fun he => absurd he hk⟩
    rw [hr] at hok
    cases hok

theorem Coherent.terminal_iff (h : n.Coherent tight) (vl : String) (node : Node) (c : String)
    (side : Side) :
    (∃ w, n.wiring vl = .ok w ∧ w.terminals[node]? = some ⟨c, side⟩) ↔
      ∃ x, n.connectable? c = some x ∧ x.terminal? side = some (.atNode vl node) := by
  simp only [wiring_eq_ok_iff, h.connectable?_eq_some_iff, Connectable.terminal?_eq_some_iff]
  exact h.holdsAt_iff vl node ⟨c, side⟩

theorem Coherent.consistent (h : n.Coherent tight) : n.Consistent where
  nodup_ids := h.nodup_ids
  contains_iff := fun _ => h.contains_iff
  found := by
    intro id hid
    obtain ⟨o, ho, rfl⟩ := List.mem_map.mp (h.contains_iff.mp hid)
    have hhas := h.mem_objects_iff.mp ho
    exact ⟨o, ho, h.find?_of_has hhas, rfl, h.kind?_of_has hhas⟩
  switchable_iff := h.switchable_iff
  terminal_iff := h.terminal_iff
  busbar_attached := by
    intro b hb
    obtain ⟨id, hb⟩ := mem_values_iff.mp hb
    have heq := h.connectable_id id (.busbarSection b) hb
    subst heq
    obtain ⟨w, hw, ht⟩ := (h.holdsAt_iff b.voltageLevel b.node ⟨b.id, .one⟩).mpr
      ⟨.busbarSection b, hb, List.mem_singleton.mpr rfl⟩
    exact ⟨w, wiring_eq_ok_iff.mpr hw, ht⟩
  bus_of_terminal := by
    intro c hc side vl bus ht
    obtain ⟨id, hc⟩ := mem_connectables_iff.mp hc
    obtain ⟨l, hl, hb⟩ := h.hasBus ⟨id, side⟩ vl bus
      ⟨c, hc, Connectable.terminal?_eq_some_iff.mp ht⟩
    exact ⟨l, busLayout_eq_ok_iff.mpr hl, hb⟩
  bus_of_switch := by
    intro vl l hl s hs
    obtain ⟨id, hs⟩ := mem_values_iff.mp hs
    obtain ⟨-, -, hb⟩ := (h.inside vl _ (busLayout_eq_ok_iff.mp hl)).2 id s hs
    exact hb
  substation_mem := by
    intro v hv s hs
    obtain ⟨id, hv⟩ := mem_values_iff.mp hv
    exact h.substation_mem id v s hv hs

/-- Whatever is done to an empty network, also where it fails, leaves a
consistent network. -/
theorem consistent_after (id : String) (serial : Nat) (ops : List Operation) :
    ((empty id serial).after ops).Consistent :=
  ((coherent_empty False id serial).after ops False.elim).consistent

end Network

end Switchyard
