import Switchyard.Network
import Switchyard.Proofs.Wiring

namespace Switchyard

open Std

variable [Numbering]

/-- The wiring is sound, and has no node without a reference if `tight`. -/
def Wiring.Firm (tight : Prop) (w : Wiring) : Prop :=
  w.Sound ∧ (tight → w.Tight)

namespace Topology

/-- A switch or a bus of the inside of a voltage level. -/
def Holds (id : String) (kind : ObjectKind) : Topology → Prop
  | .nodeBreaker w => kind = .switch ∧ id ∈ w.switches
  | .busBreaker l => kind = .switch ∧ id ∈ l.switches ∨ kind = .bus ∧ id ∈ l.buses

theorem kind_of_holds {id : String} {kind : ObjectKind} {t : Topology} (h : t.Holds id kind) :
    kind = .switch ∨ kind = .bus := by
  cases t with
  | nodeBreaker w => exact Or.inl h.1
  | busBreaker l => exact h.imp And.left And.left

/-- What lies inside voltage level `vl` is kept under its own id, and tells the
voltage level. Switches between buses join buses that are there. -/
def Firm (tight : Prop) (vl : String) : Topology → Prop
  | .nodeBreaker w =>
    w.Firm tight ∧ ∀ (id : String) s, w.switches[id]? = some s → s.voltageLevel = vl
  | .busBreaker l =>
    (∀ (id : String) b, l.buses[id]? = some b → b.id = id ∧ b.voltageLevel = vl) ∧
      ∀ (id : String) s, l.switches[id]? = some s →
        s.id = id ∧ s.voltageLevel = vl ∧ s.bus1 ∈ l.buses ∧ s.bus2 ∈ l.buses

end Topology

/-- The voltage level that a connectable lies inside of. Only busbar sections do. -/
def Connectable.holder : Connectable → Option String
  | .busbarSection b => some b.voltageLevel
  | _ => none

def Connectable.entry (c : Connectable) : IndexEntry :=
  ⟨c.kind, c.holder⟩

/-- The voltage level without its inside. -/
def VoltageLevel.shell (v : VoltageLevel) : VoltageLevel :=
  { v with topology := .nodeBreaker {} }

namespace Network

variable {n m : Network}

def inside? (n : Network) (vl : String) : Option Topology :=
  n.voltageLevels[vl]?.map (·.topology)

def shell? (n : Network) (vl : String) : Option VoltageLevel :=
  n.voltageLevels[vl]?.map (·.shell)

/-- The connectable is stored under the id. -/
def Keeps (n : Network) (id : String) : Connectable → Prop
  | .busbarSection b => n.busbarSections[id]? = some b
  | .injection i => n.injections[id]? = some i
  | .branch b => n.branches[id]? = some b
  | .transformer t => n.transformers[id]? = some t

/-- An object of the kind is stored under the id, inside the voltage level
given, if one is. -/
inductive Stores (n : Network) (id : String) : IndexEntry → Prop
  | substation (h : id ∈ n.substations) : Stores n id ⟨.substation, none⟩
  | voltageLevel (h : id ∈ n.voltageLevels) : Stores n id ⟨.voltageLevel, none⟩
  | inside {vl : String} {t : Topology} {kind : ObjectKind} (ht : n.inside? vl = some t)
    (h : t.Holds id kind) : Stores n id ⟨kind, some vl⟩
  | connectable {c : Connectable} (h : n.Keeps id c) : Stores n id c.entry

/-- A side of a stored connectable is attached there. -/
def Attaches (n : Network) (a : Attachment) (t : Terminal) : Prop :=
  ∃ c, n.Keeps a.connectable c ∧ (a.side, t) ∈ c.terminals

/-- The node of the voltage level holds the side of a connectable. -/
def HoldsAt (n : Network) (vl : String) (node : Node) (a : Attachment) : Prop :=
  ∃ w, n.inside? vl = some (.nodeBreaker w) ∧ w.terminals[node]? = some a

def HasBus (n : Network) (vl bus : String) : Prop :=
  ∃ l, n.inside? vl = some (.busBreaker l) ∧ bus ∈ l.buses

/-- The stores of the network agree with each other, and with its index. -/
structure Coherent (tight : Prop) (n : Network) : Prop where
  index_iff : ∀ (id : String) entry, n.index[id]? = some entry ↔ n.Stores id entry
  inside : ∀ vl t, n.inside? vl = some t → t.Firm tight vl
  holdsAt_iff : ∀ vl node a, n.HoldsAt vl node a ↔ n.Attaches a (.atNode vl node)
  hasBus : ∀ a vl bus, n.Attaches a (.atBus vl bus) → n.HasBus vl bus
  substation_mem : ∀ (vl : String) v s, n.voltageLevels[vl]? = some v → v.substation = some s →
    s ∈ n.substations
  substation_id : ∀ (id : String) s, n.substations[id]? = some s → s.id = id
  voltageLevel_id : ∀ (id : String) v, n.voltageLevels[id]? = some v → v.id = id
  connectable_id : ∀ id c, n.Keeps id c → c.id = id

theorem stores_iff {id : String} {entry : IndexEntry} :
    n.Stores id entry ↔
      id ∈ n.substations ∧ entry = ⟨.substation, none⟩ ∨
        id ∈ n.voltageLevels ∧ entry = ⟨.voltageLevel, none⟩ ∨
        (∃ vl t kind, n.inside? vl = some t ∧ t.Holds id kind ∧ entry = ⟨kind, some vl⟩) ∨
        ∃ c, n.Keeps id c ∧ entry = c.entry := by
  constructor
  · intro hx
    rcases hx with h | h | ⟨ht, h⟩ | h
    · exact Or.inl ⟨h, rfl⟩
    · exact Or.inr (Or.inl ⟨h, rfl⟩)
    · exact Or.inr (Or.inr (Or.inl ⟨_, _, _, ht, h, rfl⟩))
    · exact Or.inr (Or.inr (Or.inr ⟨_, h, rfl⟩))
  · intro hx
    rcases hx with ⟨h, rfl⟩ | ⟨h, rfl⟩ | ⟨vl, t, kind, ht, h, rfl⟩ | ⟨c, h, rfl⟩
    · exact .substation h
    · exact .voltageLevel h
    · exact .inside ht h
    · exact .connectable h

theorem Coherent.stores_of_index {tight : Prop} (h : n.Coherent tight) {id : String}
    (hid : id ∉ n.index) (entry : IndexEntry) : ¬n.Stores id entry := fun hs =>
  hid (mem_iff_exists_getElem?.mpr ⟨entry, (h.index_iff id entry).mpr hs⟩)

theorem Coherent.mem_index {tight : Prop} (h : n.Coherent tight) {id : String} {entry : IndexEntry}
    (hs : n.Stores id entry) : id ∈ n.index :=
  mem_iff_exists_getElem?.mpr ⟨entry, (h.index_iff id entry).mpr hs⟩

/-- The index keeps apart what is stored under one id. -/
theorem Coherent.entry_unique {tight : Prop} (h : n.Coherent tight) {id : String}
    {e f : IndexEntry} (he : n.Stores id e) (hf : n.Stores id f) : e = f :=
  Option.some.inj (((h.index_iff id e).mpr he).symm.trans ((h.index_iff id f).mpr hf))

theorem Coherent.keeps_unique {tight : Prop} (h : n.Coherent tight) {id : String}
    {c d : Connectable} (hc : n.Keeps id c) (hd : n.Keeps id d) : c = d := by
  have hk : c.kind = d.kind :=
    congrArg IndexEntry.kind (h.entry_unique (.connectable hc) (.connectable hd))
  cases c <;> cases d <;> simp_all [Keeps, Connectable.kind]

/-- What is stored under the id of a connectable is that connectable. -/
theorem Coherent.not_other {tight : Prop} (h : n.Coherent tight) {id : String} {c : Connectable}
    (hc : n.Keeps id c) :
    id ∉ n.substations ∧ id ∉ n.voltageLevels ∧
      ∀ vl t kind, n.inside? vl = some t → ¬t.Holds id kind := by
  have hkind : ∀ {e}, n.Stores id e → e.kind = c.kind := fun hs =>
    congrArg IndexEntry.kind (h.entry_unique hs (.connectable hc))
  refine ⟨fun hm => ?_, fun hm => ?_, fun vl t kind ht hh => ?_⟩
  · have hk := hkind (.substation hm)
    cases c <;> cases hk
  · have hk := hkind (.voltageLevel hm)
    cases c <;> cases hk
  · have hk := hkind (.inside ht hh)
    rcases Topology.kind_of_holds hh with rfl | rfl <;> cases c <;> cases hk

theorem wiring_eq_ok_iff {vl : String} {w : Wiring} :
    n.wiring vl = .ok w ↔ n.inside? vl = some (.nodeBreaker w) := by
  unfold wiring inside?
  cases hv : n.voltageLevels[vl]? with
  | none => simp
  | some v =>
    obtain ⟨id, name, substation, nominalV, fictitious, topology⟩ := v
    cases topology <;> simp

theorem exists_wiring_of_map {α : Type} {vl : String} {f : Wiring → α} {x : α}
    (h : (n.wiring vl).toOption.map f = some x) :
    ∃ w, n.inside? vl = some (.nodeBreaker w) ∧ f w = x := by
  cases hw : n.wiring vl with
  | error _ => simp [hw, Except.toOption] at h
  | ok w => exact ⟨w, wiring_eq_ok_iff.mp hw, by simpa [hw, Except.toOption] using h⟩

theorem busLayout_eq_ok_iff {vl : String} {l : BusLayout} :
    n.busLayout vl = .ok l ↔ n.inside? vl = some (.busBreaker l) := by
  unfold busLayout inside?
  cases hv : n.voltageLevels[vl]? with
  | none => simp
  | some v =>
    obtain ⟨id, name, substation, nominalV, fictitious, topology⟩ := v
    cases topology <;> simp

theorem inside?_eq_some_iff {vl : String} {t : Topology} :
    n.inside? vl = some t ↔ ∃ v, n.voltageLevels[vl]? = some v ∧ v.topology = t :=
  Option.map_eq_some_iff

theorem inside?_isSome_iff {vl : String} : (n.inside? vl).isSome ↔ vl ∈ n.voltageLevels := by
  rw [inside?, Option.isSome_map, ExtTreeMap.mem_iff_isSome_getElem?]

theorem shell?_isSome_iff {vl : String} : (n.shell? vl).isSome ↔ vl ∈ n.voltageLevels := by
  rw [shell?, Option.isSome_map, ExtTreeMap.mem_iff_isSome_getElem?]

end Network

end Switchyard
