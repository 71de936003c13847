import Switchyard.Proofs.Extensions
import Switchyard.Proofs.SectionSteps

namespace Switchyard

open Std Network Run

variable {f : Fold} {n m k : Network} {s t : Session} {naming : NamingStrategy}
  {vl base id : String}

namespace Wiring

variable {w w' u : Wiring} {g h : Node → Node} {a b : Node}

/-- A closed switch goes from the first node to the second. -/
def Switches (w : Wiring) (a b : Node) : Prop :=
  ∃ s ∈ w.switches.values, s.isOpen = false ∧ s.node1 = a ∧ s.node2 = b

/-- A path of closed switches joins the nodes. -/
def SwitchJoins (w : Wiring) : Node → Node → Prop :=
  Relation.EqvGen w.Switches

theorem switches_of_addSwitch (w : Wiring) {s : Switch} (hs : s.isOpen = false) :
    (w.addSwitch s).Switches s.node1 s.node2 := by
  refine ⟨s, mem_values_iff.mpr ⟨s.id, ?_⟩, hs, rfl, rfl⟩
  rw [switches_addSwitch]
  exact ExtTreeMap.getElem?_insert_self

theorem SwitchJoins.joins (hj : w.SwitchJoins a b) : w.Joins a b :=
  Relation.EqvGen.mono (fun _ _ hs => Or.inr hs) a b hj

theorem Grown.switchJoins (hg : w.Grown g w') (hj : w.SwitchJoins a b) : w'.SwitchJoins a b := by
  refine Relation.EqvGen.mono (fun x y hs => ?_) a b hj
  obtain ⟨s, hs, hends⟩ := hs
  obtain ⟨id, hs⟩ := mem_values_iff.mp hs
  exact ⟨s, mem_values_iff.mpr ⟨id, hg.switches id s hs⟩, hends⟩

/-- Folds of what there is in between may differ from there on. -/
theorem Grown.trans_of_agree (hg : w.Grown g w') (hw' : w'.Sound)
    (hagree : ∀ a ∈ w'.places, h a = g a) (hh : w'.Grown h u) : w.Grown h u where
  places := fun a ha => hh.places a (hg.places a ha)
  switches := fun id s hs => hh.switches id s (hg.switches id s hs)
  edges := fun i e he => hh.edges i e (hg.edges i e he)
  closes := by
    intro a b hc
    rcases hh.closes a b hc with hc | hsame
    · obtain ⟨ha, hb⟩ := hw'.mem_nodes_of_closes hc
      rw [hagree a (mem_nodes.mp ha), hagree b (mem_nodes.mp hb)]
      exact hg.closes a b hc
    · exact Or.inr hsame

end Wiring

theorem BusLayout.closes_of_addSwitch (l : BusLayout) {s : BusSwitch} (hs : s.isOpen = false) :
    { l with switches := l.switches.insert id s }.Closes s.bus1 s.bus2 :=
  ⟨s, mem_values_iff.mpr ⟨id, ExtTreeMap.getElem?_insert_self⟩, hs, rfl, rfl⟩

namespace Network

variable {entry : IndexEntry} {ids : List String}

/-- The index of the second network is that of the first one with the ids besides. -/
structure Enrols (entry : IndexEntry) (ids : List String) (n m : Network) : Prop where
  nodup : ids.Nodup
  new : ∀ id ∈ ids, id ∉ n.index
  getElem?_index : ∀ id : String, m.index[id]? = if id ∈ ids then some entry else n.index[id]?

theorem Enrols.nil (n : Network) : Enrols entry [] n n :=
  ⟨List.nodup_nil, by simp, by simp⟩

theorem Enrols.cons (hid : id ∉ n.index) (hk : k.index = n.index.insert id entry)
    (h : Enrols entry ids k m) : Enrols entry (id :: ids) n m := by
  have hnew : ∀ x ∈ ids, x ≠ id ∧ x ∉ n.index := by
    intro x hx
    have hno := h.new x hx
    rw [hk, ExtTreeMap.mem_insert, not_or] at hno
    exact ⟨fun hxid => hno.1 (by simp [hxid]), hno.2⟩
  refine ⟨List.nodup_cons.mpr ⟨fun hin => (hnew id hin).1 rfl, h.nodup⟩,
    List.forall_mem_cons.mpr ⟨hid, fun x hx => (hnew x hx).2⟩, fun x => ?_⟩
  rw [h.getElem?_index, hk, ExtTreeMap.getElem?_insert]
  simp only [Std.compare_eq_iff_eq, List.mem_cons]
  grind

/-- The networks have the same busbar sections, and the same ids but for those of switches. -/
structure Interlinked (n m : Network) : Prop where
  busbarSections : m.busbarSections = n.busbarSections
  index_iff : ∀ (id : String) e, e.kind ≠ .switch → (m.index[id]? = some e ↔ n.index[id]? = some e)

theorem Interlinked.refl (n : Network) : n.Interlinked n :=
  ⟨rfl, fun _ _ _ => Iff.rfl⟩

theorem Interlinked.trans (h : n.Interlinked m) (h' : m.Interlinked k) : n.Interlinked k where
  busbarSections := h'.busbarSections.trans h.busbarSections
  index_iff := fun id e he => (h'.index_iff id e he).trans (h.index_iff id e he)

theorem interlinked_setTopology (hid : id ∉ n.index) (vl : String) (u : Topology) :
    n.Interlinked ((n.register id ⟨.switch, some vl⟩).setTopology vl u) where
  busbarSections := rfl
  index_iff := by
    intro x e he
    change (n.index.insert id _)[x]? = some e ↔ _
    rw [ExtTreeMap.getElem?_insert]
    split
    next hx =>
      obtain rfl := Std.compare_eq_iff_eq.mp hx
      rw [ExtTreeMap.getElem?_eq_none hid]
      refine iff_of_false (fun h => he ?_) (by simp)
      exact Option.some.inj h ▸ rfl
    next => exact Iff.rfl

theorem Develops.interlinked (h : n.Develops (Change.Switches f) m) : n.Interlinked m := by
  induction h with
  | refl => exact .refl n
  | tail _ hstep ih =>
    obtain ⟨c, r, hc, hok⟩ := hstep
    refine ih.trans ?_
    cases c with
    | addSwitch d =>
      obtain ⟨id, hcreate, -⟩ := map_eq_ok.mp hok
      obtain ⟨w, -, -, hid, rfl⟩ := SwitchDraft.create_eq_ok hcreate
      exact interlinked_setTopology hid _ _
    | addBusSwitch d =>
      obtain ⟨id, hcreate, -⟩ := map_eq_ok.mp hok
      obtain ⟨l, -, -, -, hid, rfl⟩ := BusSwitchDraft.create_eq_ok hcreate
      exact interlinked_setTopology hid _ _
    | _ => exact hc.elim

theorem inside?_laid {t u : Topology} (ht : n.inside? vl = some t) :
    ((n.register id entry).setTopology vl u).inside? vl = some u := by
  have ht : (n.register id entry).inside? vl = some t := ht
  rw [inside?_setTopology, if_pos rfl, ht, Option.map_some]

theorem Coherent.hasBus_iff (h : n.Coherent False) :
    n.HasBus vl id ↔ n.index[id]? = some ⟨.bus, some vl⟩ := by
  rw [h.index_iff, stores_iff]
  constructor
  · rintro ⟨l, hl, hb⟩
    exact Or.inr (Or.inr (Or.inl ⟨vl, .busBreaker l, .bus, hl, Or.inr ⟨rfl, hb⟩, rfl⟩))
  · rintro (⟨-, he⟩ | ⟨-, he⟩ | ⟨_, t, _, ht, hheld, he⟩ | ⟨c, -, he⟩)
    · cases he
    · cases he
    · cases he
      cases t with
      | nodeBreaker w => cases hheld.1
      | busBreaker l => exact ⟨l, ht, (hheld.resolve_left (by simp)).2⟩
    · cases c <;> cases he

/-- Switches of the voltage level join the nodes. -/
def SwitchJoins (n : Network) (vl : String) (a b : Node) : Prop :=
  ∃ w, n.inside? vl = some (.nodeBreaker w) ∧ w.SwitchJoins a b

/-- Switches of the voltage level join the buses. -/
def BusJoins (n : Network) (vl a b : String) : Prop :=
  ∃ l, n.inside? vl = some (.busBreaker l) ∧ l.Joins a b

theorem Grown.switchJoins (h : n.Grown f m) {a b : Node} (hj : n.SwitchJoins vl a b) :
    m.SwitchJoins vl a b := by
  obtain ⟨w, hw, hj⟩ := hj
  obtain ⟨w', hw', hgrown⟩ := h.wiring hw
  exact ⟨w', hw', hgrown.switchJoins hj⟩

theorem Grown.busJoins (h : n.Grown f m) {a b : String} (hj : n.BusJoins vl a b) :
    m.BusJoins vl a b := by
  obtain ⟨l, hl, hj⟩ := hj
  obtain ⟨l', hl', hgrown⟩ := h.layout hl
  exact ⟨l', hl', Relation.EqvGen.mono (fun _ _ => hgrown.closes_of_closes) _ _ hj⟩

end Network

namespace Run

theorem Makes.developed {α : Type} {r : Run α} (h : Makes (Change.Switches f) r s)
    (hs : s.network.Coherent False) {a : α} (hok : r s = .ok a t) :
    t.network.Coherent False ∧ s.network.Interlinked t.network ∧ s.network.Grown f t.network := by
  obtain ⟨hcoherent, hgrown⟩ := (h.mono Change.Switches.toExtends).grown hs hok
  exact ⟨hcoherent, Develops.interlinked (h.ok hs hok), hgrown⟩

theorem switchJoins_createSwitch {kind : SwitchKind} {a b : Node} {fictitious : Bool}
    (h : createSwitch vl kind id a b false fictitious s = .ok () t) :
    t.network.SwitchJoins vl a b := by
  simp only [createSwitch, bind_eq_ok, edit_eq_ok, emit_eq_ok] at h
  obtain ⟨given, _, ⟨m, hcreate, rfl⟩, rfl⟩ := h
  obtain ⟨w, hw, -, -, rfl⟩ := SwitchDraft.create_eq_ok hcreate
  have hw : s.network.inside? vl = some (.nodeBreaker w) := hw
  exact ⟨_, inside?_laid hw, .rel _ _ (w.switches_of_addSwitch rfl)⟩

theorem busJoins_createBusSwitch {bus1 bus2 : String}
    (h : createBusSwitch vl id bus1 bus2 s = .ok () t) : t.network.BusJoins vl bus1 bus2 := by
  simp only [createBusSwitch, bind_eq_ok, edit_eq_ok, emit_eq_ok] at h
  obtain ⟨given, _, ⟨m, hcreate, rfl⟩, rfl⟩ := h
  obtain ⟨l, hl, -, -, -, rfl⟩ := BusSwitchDraft.create_eq_ok hcreate
  have hl : s.network.inside? vl = some (.busBreaker l) := hl
  exact ⟨_, inside?_laid hl, .rel _ _ (l.closes_of_addSwitch rfl)⟩

theorem switchJoins_createSectionLink (hs : s.network.Coherent False) {kind : SwitchKind}
    {a b : Node} {fictitious : Bool}
    (h : createSectionLink naming vl base kind a b fictitious s = .ok () t) :
    t.network.SwitchJoins vl a b := by
  obtain ⟨id, h⟩ | ⟨w, id1, id2, id3, u, v, -, -, h1, h2, h3⟩ := createSectionLink_eq_ok h
  · exact switchJoins_createSwitch h
  · let f : Fold := ⟨fun _ _ => 0, fun _ _ => ""⟩
    have hmade : ∀ {x : Session} {id a b kind}, Makes (Change.Switches f)
        (createSwitch vl kind id a b false fictitious) x := fun {_ _ _ _ _} =>
      makes_createSwitch (Or.inr rfl)
    obtain ⟨hu, -, -⟩ := hmade.developed hs h1
    obtain ⟨hv, -, huv⟩ := hmade.developed hu h2
    obtain ⟨-, -, hvt⟩ := hmade.developed hv h3
    obtain ⟨w₃, hw₃, hj3⟩ := switchJoins_createSwitch h3
    obtain ⟨w₂, hw₂, hj2⟩ := hvt.switchJoins (switchJoins_createSwitch h2)
    obtain ⟨w₁, hw₁, hj1⟩ := hvt.switchJoins (huv.switchJoins (switchJoins_createSwitch h1))
    cases hw₃.symm.trans hw₂
    cases hw₃.symm.trans hw₁
    exact ⟨w₃, hw₃, (hj1.trans _ _ _ hj2).trans _ _ _ hj3⟩

end Run

end Switchyard
