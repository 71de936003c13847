import Switchyard.Proofs.Joining
import Switchyard.Proofs.Making

namespace Switchyard

open Std

/-- Where the nodes and the buses of voltage levels fold back to. -/
structure Fold where
  node : (voltageLevel : String) → Node → Node
  bus : (voltageLevel : String) → String → String

namespace Topology

/-- All that is inside is still there, and its nodes or buses are joined as before. -/
inductive Kept : Topology → Topology → Prop
  | wiring {w w' : Wiring} (hkept : w.Kept w') : Kept (.nodeBreaker w) (.nodeBreaker w')
  | layout {l l' : BusLayout} (hkept : l.Kept l') : Kept (.busBreaker l) (.busBreaker l')

inductive Grown (f : Fold) (vl : String) : Topology → Topology → Prop
  | wiring {w w' : Wiring} (hgrown : w.Grown (f.node vl) w') :
    Grown f vl (.nodeBreaker w) (.nodeBreaker w')
  | layout {l l' : BusLayout} (hgrown : l.Grown (f.bus vl) l') :
    Grown f vl (.busBreaker l) (.busBreaker l')

variable {f : Fold} {vl : String} {t u v : Topology}

theorem Grown.refl (t : Topology) : t.Grown f vl t := by
  cases t with
  | nodeBreaker w => exact .wiring (.refl w)
  | busBreaker l => exact .layout (.refl l)

theorem Grown.trans (h : t.Grown f vl u) (h' : u.Grown f vl v) : t.Grown f vl v := by
  cases h with
  | wiring h =>
    cases h' with
    | wiring h' => exact .wiring (h.trans h')
  | layout h =>
    cases h' with
    | layout h' => exact .layout (h.trans h')

end Topology

namespace Network

variable {f : Fold} {n m k : Network} {vl id : String} {t u : Topology} {c : Connectable}

/-- All of the first network is still there in the second, and what is inside of its
voltage levels is joined as before. -/
structure Kept (n m : Network) : Prop where
  substations : ∀ (id : String) s, n.substations[id]? = some s → m.substations[id]? = some s
  shell : ∀ vl v, n.shell? vl = some v → m.shell? vl = some v
  inside : ∀ vl t, n.inside? vl = some t → ∃ u, m.inside? vl = some u ∧ t.Kept u
  connectables : ∀ id c, n.Keeps id c → m.Keeps id c

/-- All of the first network is still there in the second. What is closed besides
folds back to one node or bus. -/
structure Grown (f : Fold) (n m : Network) : Prop where
  substations : m.substations = n.substations
  shell : ∀ vl, m.shell? vl = n.shell? vl
  inside : ∀ vl t, n.inside? vl = some t → ∃ u, m.inside? vl = some u ∧ t.Grown f vl u
  connectables : ∀ id c, n.Keeps id c → m.Keeps id c

namespace Grown

theorem refl (n : Network) : n.Grown f n :=
  ⟨rfl, fun _ => rfl, fun _ t ht => ⟨t, ht, .refl t⟩, fun _ _ hc => hc⟩

theorem trans (h : n.Grown f m) (h' : m.Grown f k) : n.Grown f k where
  substations := h'.substations.trans h.substations
  shell := fun vl => (h'.shell vl).trans (h.shell vl)
  inside := by
    intro vl t ht
    obtain ⟨u, hu, htu⟩ := h.inside vl t ht
    obtain ⟨v, hv, huv⟩ := h'.inside vl u hu
    exact ⟨v, hv, htu.trans huv⟩
  connectables := fun id c hc => h'.connectables id c (h.connectables id c hc)

theorem wiring {w : Wiring} (h : n.Grown f m) (hw : n.inside? vl = some (.nodeBreaker w)) :
    ∃ w', m.inside? vl = some (.nodeBreaker w') ∧ w.Grown (f.node vl) w' := by
  obtain ⟨u, hu, hgrown⟩ := h.inside vl _ hw
  cases hgrown with
  | wiring hgrown => exact ⟨_, hu, hgrown⟩

theorem layout {l : BusLayout} (h : n.Grown f m) (hl : n.inside? vl = some (.busBreaker l)) :
    ∃ l', m.inside? vl = some (.busBreaker l') ∧ l.Grown (f.bus vl) l' := by
  obtain ⟨u, hu, hgrown⟩ := h.inside vl _ hl
  cases hgrown with
  | layout hgrown => exact ⟨_, hu, hgrown⟩

/-- Where the nodes and buses that there were are their own folds, they are joined
as before. -/
theorem kept (h : n.Grown f m) (hn : n.Coherent False)
    (hnode : ∀ vl w, n.inside? vl = some (.nodeBreaker w) → ∀ a ∈ w.places, f.node vl a = a)
    (hbus : ∀ vl l, n.inside? vl = some (.busBreaker l) → ∀ b ∈ l.buses, f.bus vl b = b) :
    n.Kept m where
  substations := fun id s hs => h.substations ▸ hs
  shell := fun vl v hv => h.shell vl ▸ hv
  inside := by
    intro vl t ht
    obtain ⟨u, hu, hgrown⟩ := h.inside vl t ht
    refine ⟨u, hu, ?_⟩
    cases hgrown with
    | wiring hgrown => exact .wiring (hgrown.kept (hn.sound vl _ ht) (hnode vl _ ht))
    | layout hgrown =>
      refine .layout (hgrown.kept (fun id s hs => ?_) (hbus vl _ ht))
      exact ((hn.inside vl _ ht).2 id s hs).2.2
  connectables := h.connectables

theorem setTopology (ht : n.inside? vl = some t) (hu : t.Grown f vl u)
    {index : ExtTreeMap String IndexEntry} :
    n.Grown f ({ n with index }.setTopology vl u) where
  substations := rfl
  shell := fun x => Network.shell?_setTopology _ vl u x
  inside := by
    intro x s hs
    rw [inside?_setTopology]
    split
    next he =>
      subst he
      cases ht.symm.trans hs
      have hx : ({ n with index } : Network).inside? vl = some t := ht
      exact ⟨u, by rw [hx, Option.map_some], hu⟩
    next => exact ⟨s, hs, .refl s⟩
  connectables := by
    intro id c hc
    rw [keeps_setTopology]
    cases c <;> exact hc

theorem put {entry : IndexEntry} {node : Node} {w w' : Wiring} (hn : n.Coherent False)
    (hid : id ∉ n.index) (hw : n.inside? vl = some (.nodeBreaker w)) {a : Attachment}
    (hattach : w.attach node a = .ok w') :
    n.Grown f (((n.register id entry).setTopology vl (.nodeBreaker w')).put id c) := by
  have hset : n.Grown f ((n.register id entry).setTopology vl (.nodeBreaker w')) :=
    .setTopology hw (.wiring (.attach (hn.sound vl w hw) hattach))
  have hnone : ∀ d, ¬((n.register id entry).setTopology vl (.nodeBreaker w')).Keeps id d := by
    intro d hd
    rw [keeps_setTopology, keeps_register] at hd
    exact hn.stores_of_index hid _ (.connectable hd)
  refine ⟨?_, fun x => ?_, fun x t ht => ?_, fun x d hd => ?_⟩
  · rw [substations_put]
    exact hset.substations
  · rw [shell?, voltageLevels_put]
    exact hset.shell x
  · rw [inside?_put]
    exact hset.inside x t ht
  · exact (keeps_put hnone c).mpr (Or.inl (hset.connectables x d hd))

end Grown

end Network

/-- The change adds a bus, a busbar section, or a switch that is open or whose ends
fold back to one. -/
def Change.Extends (f : Fold) : Change → Prop
  | .addBus _ | .addBusbarSection _ => True
  | .addSwitch d =>
    d.isOpen = true ∨ f.node d.voltageLevel d.node1 = f.node d.voltageLevel d.node2
  | .addBusSwitch d => f.bus d.voltageLevel d.bus1 = f.bus d.voltageLevel d.bus2
  | _ => False

/-- The change adds a switch that is open or whose ends fold back to one. -/
def Change.Switches (f : Fold) : Change → Prop
  | .addSwitch d =>
    d.isOpen = true ∨ f.node d.voltageLevel d.node1 = f.node d.voltageLevel d.node2
  | .addBusSwitch d => f.bus d.voltageLevel d.bus1 = f.bus d.voltageLevel d.bus2
  | _ => False

theorem Change.Switches.toExtends {f : Fold} (c : Change) (h : c.Switches f) : c.Extends f := by
  cases c with
  | addSwitch d => exact h
  | addBusSwitch d => exact h
  | _ => exact h.elim

theorem Change.grown_of_ok {f : Fold} {n m : Network} {r : Receipt} {c : Change}
    (hn : n.Coherent False) (hc : c.Extends f) (hok : c.perform n = .ok r m) : n.Grown f m := by
  cases c with
  | addBusbarSection d =>
    obtain ⟨id, hcreate, -⟩ := map_eq_ok.mp hok
    obtain ⟨hid, w, w', hw, hattach, rfl⟩ := d.create_eq_ok hcreate
    exact .put hn hid hw hattach
  | addBus d =>
    obtain ⟨id, hcreate, -⟩ := map_eq_ok.mp hok
    obtain ⟨l, hl, hid, rfl⟩ := BusDraft.create_eq_ok hcreate
    refine .setTopology hl (.layout (.addBus fun hm => ?_))
    have hheld : (Topology.busBreaker l).Holds id .bus := Or.inr ⟨rfl, hm⟩
    exact hn.stores_of_index hid _ (.inside hl hheld)
  | addSwitch d =>
    obtain ⟨id, hcreate, -⟩ := map_eq_ok.mp hok
    obtain ⟨w, hw, -, hid, rfl⟩ := SwitchDraft.create_eq_ok hcreate
    have hgrown : w.Grown (f.node d.voltageLevel) (w.addSwitch (d.switch id)) := by
      refine .addSwitch (hn.sound _ w hw) (fun hm => ?_) hc
      have hheld : (Topology.nodeBreaker w).Holds id .switch := ⟨rfl, hm⟩
      exact hn.stores_of_index hid _ (.inside hw hheld)
    exact .setTopology hw (.wiring hgrown)
  | addBusSwitch d =>
    obtain ⟨id, hcreate, -⟩ := map_eq_ok.mp hok
    obtain ⟨l, hl, -, -, hid, rfl⟩ := BusSwitchDraft.create_eq_ok hcreate
    have hgrown : l.Grown (f.bus d.voltageLevel)
        { l with switches := l.switches.insert id (d.switch id) } := by
      refine .addSwitch (fun hm => ?_) hc
      have hheld : (Topology.busBreaker l).Holds id .switch := Or.inl ⟨rfl, hm⟩
      exact hn.stores_of_index hid _ (.inside hl hheld)
    exact .setTopology hl (.layout hgrown)
  | _ => exact hc.elim

theorem Network.Develops.grown {f : Fold} {n m : Network} (h : n.Develops (Change.Extends f) m)
    (hn : n.Coherent False) : n.Grown f m := by
  induction h with
  | refl => exact .refl n
  | tail hdevelops hstep ih =>
    obtain ⟨c, r, hc, hok⟩ := hstep
    exact ih.trans (Change.grown_of_ok (Develops.coherent hdevelops hn) hc hok)

end Switchyard
