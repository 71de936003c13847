import Switchyard.Network.Create
import Switchyard.Proofs.Terminals

namespace Switchyard

open Std

variable [Numbering]

namespace Network

variable {tight : Prop} {n m : Network}

/-- Stores a connectable under an id. -/
def put (n : Network) (id : String) : Connectable → Network
  | .busbarSection b => { n with busbarSections := n.busbarSections.insert id b }
  | .injection i => { n with injections := n.injections.insert id i }
  | .branch b => { n with branches := n.branches.insert id b }
  | .transformer t => { n with transformers := n.transformers.insert id t }

/-- One new object is stored, under an id not in use before. -/
structure Gains (tight : Prop) (n : Network) (id : String) (entry : IndexEntry) (m : Network) :
    Prop where
  coherent : m.Coherent tight
  fresh : id ∉ n.index
  index_eq : m.index = n.index.insert id entry
  keeps : ∀ x c, n.Keeps x c → m.Keeps x c

@[simp] theorem index_put (n : Network) (id : String) (c : Connectable) :
    (n.put id c).index = n.index := by
  cases c <;> rfl

@[simp] theorem voltageLevels_put (n : Network) (id : String) (c : Connectable) :
    (n.put id c).voltageLevels = n.voltageLevels := by
  cases c <;> rfl

@[simp] theorem substations_put (n : Network) (id : String) (c : Connectable) :
    (n.put id c).substations = n.substations := by
  cases c <;> rfl

theorem keeps_put {id : String} (hfree : ∀ d, ¬n.Keeps id d) (c : Connectable) {x : String}
    {d : Connectable} : (n.put id c).Keeps x d ↔ n.Keeps x d ∨ x = id ∧ d = c := by
  have hf := hfree d
  cases c <;> cases d <;>
    simp only [put, Keeps, ExtTreeMap.getElem?_insert, Std.compare_eq_iff_eq, reduceCtorEq,
      and_false, or_false, Connectable.busbarSection.injEq, Connectable.injection.injEq,
      Connectable.branch.injEq, Connectable.transformer.injEq] at hf ⊢ <;>
    grind

omit [Numbering] in
/-- The index grows by the entry of the one thing newly stored. -/
theorem index_iff_insert {index : ExtTreeMap String IndexEntry} {id : String} {entry : IndexEntry}
    {old new : String → IndexEntry → Prop} (hi : ∀ x e, index[x]? = some e ↔ old x e)
    (hid : id ∉ index) (hn : ∀ x e, new x e ↔ old x e ∨ x = id ∧ e = entry) (x : String)
    (e : IndexEntry) : (index.insert id entry)[x]? = some e ↔ new x e := by
  have hnone := ExtTreeMap.getElem?_eq_none hid
  have hx := hi x e
  rw [hn, ExtTreeMap.getElem?_insert]
  simp only [Std.compare_eq_iff_eq]
  grind

@[simp] theorem inside?_put (n : Network) (id : String) (c : Connectable) (vl : String) :
    (n.put id c).inside? vl = n.inside? vl := by
  simp only [inside?, voltageLevels_put]

theorem stores_put {id : String} (hfree : ∀ d, ¬n.Keeps id d) (c : Connectable) {x : String}
    {e : IndexEntry} :
    (n.put id c).Stores x e ↔ n.Stores x e ∨ x = id ∧ e = c.entry := by
  simp only [stores_iff, substations_put, voltageLevels_put, inside?_put, keeps_put hfree]
  grind

theorem attaches_put {id : String} (hfree : ∀ d, ¬n.Keeps id d) (c : Connectable)
    {a : Attachment} {t : Terminal} :
    (n.put id c).Attaches a t ↔
      n.Attaches a t ∨ a.connectable = id ∧ (a.side, t) ∈ c.terminals := by
  simp only [Attaches, keeps_put hfree]
  grind

theorem keeps_register {id : String} {entry : IndexEntry} {x : String} {c : Connectable} :
    (n.register id entry).Keeps x c ↔ n.Keeps x c :=
  keeps_reindex

section Put

variable {id : String} {c : Connectable}

theorem shell?_put (vl : String) : (n.put id c).shell? vl = n.shell? vl := by
  simp only [shell?, voltageLevels_put]

theorem holdsAt_put {vl : String} {node : Node} {a : Attachment} :
    (n.put id c).HoldsAt vl node a ↔ n.HoldsAt vl node a := by
  simp only [HoldsAt, inside?_put]

theorem hasBus_put {vl bus : String} : (n.put id c).HasBus vl bus ↔ n.HasBus vl bus := by
  simp only [HasBus, inside?_put]

variable (h : n.Coherent tight) (hid : id ∉ n.index)
  (hr : Rewired tight (n.register id c.entry) m)

include hr

theorem Rewired.index_put_new : (m.put id c).index = n.index.insert id c.entry := by
  rw [index_put, hr.index_eq]
  rfl

theorem Rewired.shell?_put_new (vl : String) : (m.put id c).shell? vl = n.shell? vl :=
  (shell?_put vl).trans (hr.shell vl)

include h

theorem Coherent.firm_put_new {vl : String} {u : Topology}
    (hu : (m.put id c).inside? vl = some u) : u.Firm tight vl := by
  rw [inside?_put] at hu
  obtain ⟨t, ht, hr⟩ := hr.inside vl u hu
  exact hr.firm (h.inside vl t ht)

include hid

theorem Coherent.not_keeps_new (d : Connectable) : ¬m.Keeps id d := fun hd =>
  h.stores_of_index hid _ (.connectable (keeps_register.mp (hr.keeps_iff.mp hd)))

theorem Coherent.keeps_put_new {x : String} {d : Connectable} :
    (m.put id c).Keeps x d ↔ n.Keeps x d ∨ x = id ∧ d = c := by
  rw [keeps_put (h.not_keeps_new hid hr), hr.keeps_iff, keeps_register]

theorem Coherent.attaches_put_new {a : Attachment} {t : Terminal} :
    (m.put id c).Attaches a t ↔
      n.Attaches a t ∨ a.connectable = id ∧ (a.side, t) ∈ c.terminals := by
  rw [attaches_put (h.not_keeps_new hid hr), hr.attaches_iff]
  exact or_congr_left attaches_reindex

theorem Coherent.index_iff_put_new (x : String) (e : IndexEntry) :
    (m.put id c).index[x]? = some e ↔ (m.put id c).Stores x e := by
  rw [hr.index_put_new]
  apply index_iff_insert h.index_iff hid
  intro x e
  rw [stores_put (h.not_keeps_new hid hr), hr.stores_iff]
  exact or_congr_left stores_reindex

theorem Coherent.holdsAt_iff_put_new
    (hh : ∀ vl node a, m.HoldsAt vl node a ↔
      n.HoldsAt vl node a ∨ ∃ side, (side, .atNode vl node) ∈ c.terminals ∧ a = ⟨id, side⟩)
    (vl : String) (node : Node) (a : Attachment) :
    (m.put id c).HoldsAt vl node a ↔ (m.put id c).Attaches a (.atNode vl node) := by
  rw [holdsAt_put, hh, h.attaches_put_new hid hr, h.holdsAt_iff]
  refine or_congr_right ⟨?_, ?_⟩
  · rintro ⟨side, hs, rfl⟩
    exact ⟨rfl, hs⟩
  · rintro ⟨rfl, hs⟩
    exact ⟨a.side, hs, rfl⟩

theorem Coherent.hasBus_put_new (hfree : ∀ x ∈ c.terminals, n.Free x.2) {a : Attachment}
    {vl bus : String} (ha : (m.put id c).Attaches a (.atBus vl bus)) :
    (m.put id c).HasBus vl bus := by
  have hbus : m.HasBus vl bus ↔ n.HasBus vl bus := hr.hasBus_iff
  rw [hasBus_put, hbus]
  rcases (h.attaches_put_new hid hr).mp ha with ha | ⟨-, ha⟩
  · exact h.hasBus a vl bus ha
  · exact hfree _ ha

end Put

/-- A connectable whose sides hang at free places enters the network under a new id. -/
theorem Coherent.put (h : n.Coherent tight) {c : Connectable} {id : String} (hid : id ∉ n.index)
    (hc : c.id = id) (hfree : ∀ x ∈ c.terminals, n.Free x.2)
    (hr : Rewired tight (n.register id c.entry) m)
    (hh : ∀ vl node a, m.HoldsAt vl node a ↔
      n.HoldsAt vl node a ∨ ∃ side, (side, .atNode vl node) ∈ c.terminals ∧ a = ⟨id, side⟩) :
    n.Gains tight id c.entry (m.put id c) := by
  have hsubstations : (m.put id c).substations = n.substations :=
    (substations_put m id c).trans hr.substations_eq
  refine ⟨?_, hid, hr.index_put_new, fun x d hd => (h.keeps_put_new hid hr).mpr (Or.inl hd)⟩
  exact
    { index_iff := h.index_iff_put_new hid hr
      inside := fun _ _ hu => h.firm_put_new hr hu
      holdsAt_iff := h.holdsAt_iff_put_new hid hr hh
      hasBus := fun _ _ _ ha => h.hasBus_put_new hid hr hfree ha
      substation_mem := h.substation_mem_of_shell hr.shell?_put_new hsubstations
      substation_id := hsubstations ▸ h.substation_id
      voltageLevel_id := h.voltageLevel_id_of_shell hr.shell?_put_new
      connectable_id := by
        intro x d hd
        rcases (h.keeps_put_new hid hr).mp hd with hd | ⟨rfl, rfl⟩
        · exact h.connectable_id x d hd
        · exact hc }

theorem Coherent.firm_wiring (h : n.Coherent tight) {vl : String} {w : Wiring}
    (hw : n.inside? vl = some (.nodeBreaker w)) : w.Firm tight :=
  (h.inside vl _ hw).1

end Network

end Switchyard
