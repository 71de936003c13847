import Switchyard.Junction
import Switchyard.Proofs.Removal

namespace Switchyard

variable [Numbering]

/-- What the index keeps of an object. -/
def Object.entry : Object → IndexEntry
  | .substation _ => ⟨.substation, none⟩
  | .voltageLevel _ => ⟨.voltageLevel, none⟩
  | .bus b => ⟨.bus, some b.voltageLevel⟩
  | .switch s => ⟨.switch, some s.voltageLevel⟩
  | .busSwitch s => ⟨.switch, some s.voltageLevel⟩
  | .connectable c => c.entry

theorem Object.kind_entry (o : Object) : o.entry.kind = o.kind := by
  cases o <;> rfl

namespace Network

variable {tight : Prop} {n : Network} {id : String}

/-- The object is stored, under its own id. -/
def Has (n : Network) : Object → Prop
  | .substation s => n.substations[s.id]? = some s
  | .voltageLevel v => n.voltageLevels[v.id]? = some v
  | .bus b => ∃ l, n.inside? b.voltageLevel = some (.busBreaker l) ∧ l.buses[b.id]? = some b
  | .switch s => ∃ w, n.inside? s.voltageLevel = some (.nodeBreaker w) ∧ w.switches[s.id]? = some s
  | .busSwitch s =>
    ∃ l, n.inside? s.voltageLevel = some (.busBreaker l) ∧ l.switches[s.id]? = some s
  | .connectable c => n.Keeps c.id c

theorem Has.stores {o : Object} (h : n.Has o) : n.Stores o.id o.entry := by
  cases o with
  | substation s => exact .substation (mem_iff_exists_getElem?.mpr ⟨s, h⟩)
  | voltageLevel v => exact .voltageLevel (mem_iff_exists_getElem?.mpr ⟨v, h⟩)
  | bus b =>
    obtain ⟨l, hl, hb⟩ := h
    exact .inside hl (Or.inr ⟨rfl, mem_iff_exists_getElem?.mpr ⟨b, hb⟩⟩)
  | switch s =>
    obtain ⟨w, hw, hs⟩ := h
    exact .inside hw ⟨rfl, mem_iff_exists_getElem?.mpr ⟨s, hs⟩⟩
  | busSwitch s =>
    obtain ⟨l, hl, hs⟩ := h
    exact .inside hl (Or.inl ⟨rfl, mem_iff_exists_getElem?.mpr ⟨s, hs⟩⟩)
  | connectable c => exact .connectable h

theorem Coherent.find?_of_has (h : n.Coherent tight) {o : Object} (ho : n.Has o) :
    n.find? o.id = some o := by
  have hi := (h.index_iff _ _).mpr ho.stores
  simp only [find?, hi, Option.bind_eq_bind, Option.bind_some]
  cases o with
  | substation s => exact congrArg (Option.map Object.substation) ho
  | voltageLevel v => exact congrArg (Option.map Object.voltageLevel) ho
  | bus b =>
    obtain ⟨l, hl, hb⟩ := ho
    obtain ⟨v, hv, htop⟩ := inside?_eq_some_iff.mp hl
    simp only [Object.entry, Object.id, Option.bind_some, hv, VoltageLevel.layout?, htop, hb,
      Option.map_some]
  | switch s =>
    obtain ⟨w, hw, hs⟩ := ho
    obtain ⟨v, hv, htop⟩ := inside?_eq_some_iff.mp hw
    simp only [Object.entry, Object.id, Option.bind_some, hv, htop, hs, Option.map_some]
  | busSwitch s =>
    obtain ⟨l, hl, hs⟩ := ho
    obtain ⟨v, hv, htop⟩ := inside?_eq_some_iff.mp hl
    simp only [Object.entry, Object.id, Option.bind_some, hv, htop, hs, Option.map_some]
  | connectable c =>
    have hc := h.connectable?_eq_some_iff.mpr ho
    cases c <;> exact congrArg (Option.map Object.connectable) hc

theorem Coherent.has_of_stores (h : n.Coherent tight) {entry : IndexEntry}
    (hstored : n.Stores id entry) : ∃ o, n.Has o ∧ o.id = id ∧ o.entry = entry := by
  rcases stores_iff.mp hstored with
    ⟨hs, rfl⟩ | ⟨hv, rfl⟩ | ⟨vl, t, kind, ht, hh, rfl⟩ | ⟨c, hc, rfl⟩
  · obtain ⟨s, hs⟩ := mem_iff_exists_getElem?.mp hs
    have heq := h.substation_id id s hs
    subst heq
    exact ⟨.substation s, hs, rfl, rfl⟩
  · obtain ⟨v, hv⟩ := mem_iff_exists_getElem?.mp hv
    have heq := h.voltageLevel_id id v hv
    subst heq
    exact ⟨.voltageLevel v, hv, rfl, rfl⟩
  · have hfirm := h.inside vl _ ht
    cases t with
    | nodeBreaker w =>
      obtain ⟨rfl, hmem⟩ := hh
      obtain ⟨s, hs⟩ := mem_iff_exists_getElem?.mp hmem
      have heq := (hfirm.1.1.switch_edge id s hs).1
      subst heq
      have heq := hfirm.2 _ s hs
      subst heq
      exact ⟨.switch s, ⟨w, ht, hs⟩, rfl, rfl⟩
    | busBreaker l =>
      obtain ⟨rfl, hmem⟩ | ⟨rfl, hmem⟩ := hh
      · obtain ⟨s, hs⟩ := mem_iff_exists_getElem?.mp hmem
        obtain ⟨rfl, rfl, -⟩ := hfirm.2 id s hs
        exact ⟨.busSwitch s, ⟨l, ht, hs⟩, rfl, rfl⟩
      · obtain ⟨b, hb⟩ := mem_iff_exists_getElem?.mp hmem
        obtain ⟨rfl, rfl⟩ := hfirm.1 id b hb
        exact ⟨.bus b, ⟨l, ht, hb⟩, rfl, rfl⟩
  · have heq := h.connectable_id id c hc
    subst heq
    exact ⟨.connectable c, hc, rfl, rfl⟩

theorem Coherent.find?_eq_some_iff (h : n.Coherent tight) {o : Object} :
    n.find? id = some o ↔ n.Has o ∧ o.id = id := by
  constructor
  · intro ho
    cases hi : n.index[id]? with
    | none =>
      simp only [find?, hi, Option.bind_eq_bind, Option.bind_none] at ho
      cases ho
    | some entry =>
      obtain ⟨found, hfound, rfl, -⟩ := h.has_of_stores ((h.index_iff _ _).mp hi)
      have heq := Option.some.inj ((h.find?_of_has hfound).symm.trans ho)
      subst heq
      exact ⟨hfound, rfl⟩
  · intro hx
    obtain ⟨ho, rfl⟩ := hx
    exact h.find?_of_has ho

theorem Coherent.junction_cases (h : n.Coherent tight) {j : Junction} (hj : n.junction id = .ok j) :
    (∃ vl, j = .bus id vl ∧ n.HasBus vl id) ∨
      ∃ b, n.busbarSections[id]? = some b ∧ j = .busbarSection id b.voltageLevel b.node := by
  unfold junction at hj
  split at hj
  · cases hj
  · split at hj
    next b hb =>
      cases hj
      have ho : n.find? id = some (.bus b) := by
        unfold bus? at hb
        split at hb
        next ho => rw [ho, Option.some.inj hb]
        next => cases hb
      obtain ⟨⟨l, hl, hin⟩, rfl⟩ := h.find?_eq_some_iff.mp ho
      exact Or.inl ⟨b.voltageLevel, rfl, l, hl, mem_iff_exists_getElem?.mpr ⟨b, hin⟩⟩
    next => cases hj
  · split at hj
    next b hb =>
      cases hj
      have hid : b.id = id := h.connectable_id id (.busbarSection b) hb
      exact Or.inr ⟨b, hb, by rw [hid]⟩
    next => cases hj
  · cases hj

/-- Buses are junctions of voltage levels at bus level, busbar sections of those
at node level. -/
theorem Coherent.inside_of_junction (h : n.Coherent tight) {j : Junction}
    (hj : n.junction id = .ok j) :
    (∃ x vl l, j = .bus x vl ∧ n.inside? vl = some (.busBreaker l)) ∨
      ∃ x vl node w, j = .busbarSection x vl node ∧ n.inside? vl = some (.nodeBreaker w) := by
  rcases h.junction_cases hj with ⟨vl, rfl, l, hl, -⟩ | ⟨b, hb, rfl⟩
  · exact Or.inl ⟨id, vl, l, rfl, hl⟩
  · obtain ⟨w, hw, -⟩ := (h.holdsAt_iff b.voltageLevel b.node ⟨id, .one⟩).mpr
      ⟨.busbarSection b, hb, List.mem_singleton.mpr rfl⟩
    exact Or.inr ⟨id, _, _, w, rfl, hw⟩

end Network

end Switchyard
