import Mathlib.Logic.Relation
import Switchyard.Proofs.Augmented
import Switchyard.Proofs.Nodes

namespace Switchyard

open Std

/-- A map that takes one relation to what another one generates takes what it generates
there too. -/
theorem eqvGen_map {α : Type} {r r' : α → α → Prop} {f : α → α}
    (hback : ∀ a b, r' a b → Relation.EqvGen r (f a) (f b)) {a b : α}
    (h : Relation.EqvGen r' a b) : Relation.EqvGen r (f a) (f b) := by
  induction h with
  | rel x y hxy => exact hback x y hxy
  | refl x => exact .refl _
  | symm x y _ ih => exact .symm _ _ ih
  | trans x y z _ _ hxy hyz => exact .trans _ _ _ hxy hyz

/-- Two relations relate the points that a map leaves alone in the same way, if the first one
is kept and the map takes the second one back to it. -/
theorem eqvGen_iff_of_map {α : Type} {r r' : α → α → Prop} {f : α → α}
    (hsub : ∀ a b, r a b → Relation.EqvGen r' a b)
    (hback : ∀ a b, r' a b → Relation.EqvGen r (f a) (f b)) {a b : α} (ha : f a = a)
    (hb : f b = b) : Relation.EqvGen r' a b ↔ Relation.EqvGen r a b := by
  constructor
  · intro h
    have hfold := eqvGen_map hback h
    rwa [ha, hb] at hfold
  · exact eqvGen_map (f := id) hsub

/-- What is related folds back to what was related before, if what is new folds back to one
point. -/
theorem eqvGen_fold {α : Type} {r : α → α → Prop} {p : α → Prop} {f : α → α}
    (hends : ∀ a b, r a b → p a ∧ p b) (hfix : ∀ a, p a → f a = a) {a b : α}
    (h : r a b ∨ f a = f b) : Relation.EqvGen r (f a) (f b) := by
  rcases h with hold | hsame
  · obtain ⟨ha, hb⟩ := hends a b hold
    rw [hfix a ha, hfix b hb]
    exact .rel a b hold
  · rw [hsame]
    exact .refl _

theorem eqvGen_iff_of_fold {α : Type} {r r' : α → α → Prop} {p : α → Prop} {f : α → α}
    (hsub : ∀ a b, r a b → r' a b) (hends : ∀ a b, r a b → p a ∧ p b) (hfix : ∀ a, p a → f a = a)
    (hnew : ∀ a b, r' a b → r a b ∨ f a = f b) {a b : α} (ha : p a) (hb : p b) :
    Relation.EqvGen r' a b ↔ Relation.EqvGen r a b :=
  eqvGen_iff_of_map (fun x y hxy => .rel x y (hsub x y hxy))
    (fun x y hxy => eqvGen_fold hends hfix (hnew x y hxy)) (hfix a ha) (hfix b hb)

namespace Wiring

variable {w w' u : Wiring} {f : Node → Node} {a b : Node}

/-- A closed switch or an internal connection goes from the first node to the second. -/
def Closes (w : Wiring) (a b : Node) : Prop :=
  (a, b) ∈ w.connections ∨ ∃ s ∈ w.switches.values, s.isOpen = false ∧ s.node1 = a ∧ s.node2 = b

/-- A path of closed switches and internal connections joins the nodes. -/
def Joins (w : Wiring) : Node → Node → Prop :=
  Relation.EqvGen w.Closes

/-- The second wiring has all that the first one has, and joins its nodes as it does. -/
structure Kept (w w' : Wiring) : Prop where
  nodes : ∀ a ∈ w.nodes, a ∈ w'.nodes
  switches : ∀ (id : String) s, w.switches[id]? = some s → w'.switches[id]? = some s
  edges : ∀ (k : Nat) e, w.edges[k]? = some e → w'.edges[k]? = some e
  joins_iff : ∀ a ∈ w.nodes, ∀ b ∈ w.nodes, w'.Joins a b ↔ w.Joins a b

/-- The second wiring has all that the first one has. What it closes besides folds
back to one node. -/
structure Grown (f : Node → Node) (w w' : Wiring) : Prop where
  places : ∀ a ∈ w.places, a ∈ w'.places
  switches : ∀ (id : String) s, w.switches[id]? = some s → w'.switches[id]? = some s
  edges : ∀ (k : Nat) e, w.edges[k]? = some e → w'.edges[k]? = some e
  closes : ∀ a b, w'.Closes a b → w.Closes a b ∨ f a = f b

theorem mem_connections_iff :
    (a, b) ∈ w.connections ↔ ∃ k : Nat, w.edges[k]? = some ⟨a, b, .connection⟩ := by
  simp only [connections, List.mem_map, List.mem_filter, edgeList, mem_values_iff,
    decide_eq_true_eq, Prod.mk.injEq]
  constructor
  · rintro ⟨⟨x, y, link⟩, ⟨⟨k, hk⟩, rfl⟩, rfl, rfl⟩
    exact ⟨k, hk⟩
  · rintro ⟨k, hk⟩
    exact ⟨_, ⟨⟨k, hk⟩, rfl⟩, rfl, rfl⟩

theorem Sound.mem_nodes_of_closes (h : w.Sound) (hc : w.Closes a b) :
    a ∈ w.nodes ∧ b ∈ w.nodes := by
  rcases hc with hc | ⟨s, hs, -, rfl, rfl⟩
  · exact ⟨h.mem_nodes_of_used (Or.inr (Or.inl ⟨_, hc, Or.inl rfl⟩)),
      h.mem_nodes_of_used (Or.inr (Or.inl ⟨_, hc, Or.inr rfl⟩))⟩
  · exact ⟨h.mem_nodes_of_used (Or.inl ⟨s, hs, Or.inl rfl⟩),
      h.mem_nodes_of_used (Or.inl ⟨s, hs, Or.inr rfl⟩)⟩

theorem Carries.closes_iff {S : Set Switch} {T : Set (Node × Attachment)} (h : w.Carries S T w') :
    w'.Closes a b ↔ w.Closes a b ∨ ∃ s ∈ S, s.isOpen = false ∧ s.node1 = a ∧ s.node2 = b := by
  simp only [Closes, h.connections_eq, or_assoc, mem_values_iff, h.getElem?_switches]
  refine or_congr_right ?_
  constructor
  · rintro ⟨s, ⟨id, hs | ⟨hs, -⟩⟩, hends⟩
    · exact Or.inl ⟨s, ⟨id, hs⟩, hends⟩
    · exact Or.inr ⟨s, hs, hends⟩
  · rintro (⟨s, ⟨id, hs⟩, hends⟩ | ⟨s, hs, hends⟩)
    · exact ⟨s, ⟨id, Or.inl hs⟩, hends⟩
    · exact ⟨s, ⟨s.id, Or.inr ⟨hs, rfl⟩⟩, hends⟩

namespace Grown

theorem refl (w : Wiring) : w.Grown f w :=
  ⟨fun _ h => h, fun _ _ h => h, fun _ _ h => h, fun _ _ => Or.inl⟩

theorem trans (h : w.Grown f w') (h' : w'.Grown f u) : w.Grown f u where
  places := fun a ha => h'.places a (h.places a ha)
  switches := fun id s hs => h'.switches id s (h.switches id s hs)
  edges := fun k e he => h'.edges k e (h.edges k e he)
  closes := fun a b hc => (h'.closes a b hc).elim (h.closes a b) Or.inr

theorem closes_of_closes (h : w.Grown f w') (hc : w.Closes a b) : w'.Closes a b := by
  rcases hc with hc | ⟨s, hs, hends⟩
  · obtain ⟨k, hk⟩ := mem_connections_iff.mp hc
    exact Or.inl (mem_connections_iff.mpr ⟨k, h.edges k _ hk⟩)
  · obtain ⟨id, hs⟩ := mem_values_iff.mp hs
    exact Or.inr ⟨s, mem_values_iff.mpr ⟨id, h.switches id s hs⟩, hends⟩

/-- If old nodes are their own folds, they are joined as before. -/
theorem kept (h : w.Grown f w') (hw : w.Sound) (hfix : ∀ a ∈ w.places, f a = a) : w.Kept w' where
  nodes := by simpa only [mem_nodes] using h.places
  switches := h.switches
  edges := h.edges
  joins_iff := by
    intro a ha b hb
    exact eqvGen_iff_of_fold (p := (· ∈ w.nodes)) (fun _ _ => h.closes_of_closes)
      (fun _ _ => hw.mem_nodes_of_closes) (fun a ha => hfix a (mem_nodes.mp ha)) h.closes ha hb

/-- A switch is added that is open, or whose ends fold back to one node. -/
theorem addSwitch (hw : w.Sound) {s : Switch} (hnew : s.id ∉ w.switches)
    (hs : s.isOpen = true ∨ f s.node1 = f s.node2) : w.Grown f (w.addSwitch s) where
  places := by
    intro a ha
    change a ∈ (w.addEdge s.edge).places
    rw [mem_places_addEdge]
    exact Or.inr (Or.inr ha)
  switches := by
    intro id x hx
    have hne : s.id ≠ id := fun he => hnew (he ▸ mem_iff_exists_getElem?.mpr ⟨x, hx⟩)
    rw [switches_addSwitch, ExtTreeMap.getElem?_insert]
    simpa [hne] using hx
  edges := by
    intro k e he
    have hne : w.arcs.next ≠ k := by
      rintro rfl
      rw [w.getElem?_edges_next] at he
      cases he
    rw [edges_addSwitch hw.toLaid, ExtTreeMap.getElem?_insert]
    simpa [hne] using he
  closes := by
    intro a b hc
    rcases hc with hc | ⟨x, hx, hclosed, rfl, rfl⟩
    · obtain ⟨k, hk⟩ := mem_connections_iff.mp hc
      rw [edges_addSwitch hw.toLaid, ExtTreeMap.getElem?_insert] at hk
      split at hk
      · cases hk
      · exact Or.inl (Or.inl (mem_connections_iff.mpr ⟨k, hk⟩))
    · obtain ⟨id, hx⟩ := mem_values_iff.mp hx
      rw [switches_addSwitch, ExtTreeMap.getElem?_insert] at hx
      split at hx
      · cases hx
        refine Or.inr (hs.resolve_left ?_)
        rw [hclosed]
        exact Bool.false_ne_true
      · exact Or.inl (Or.inr ⟨x, mem_values_iff.mpr ⟨id, hx⟩, hclosed, rfl, rfl⟩)

theorem attach (hw : w.Sound) {t : Attachment} (hok : w.attach a t = .ok w') : w.Grown f w' := by
  obtain ⟨-, rfl⟩ := attach_eq_ok.mp hok
  have hedges : (w.ensureNode a).edges = w.edges := hw.toLaid.edges_ensureNode a
  have hswitches : (w.ensureNode a).switches = w.switches := w.switches_ensureNode a
  refine ⟨fun b hb => mem_places_ensureNode.mpr (Or.inr hb), fun id s hs => ?_, fun k e he => ?_,
    fun b c hc => Or.inl ?_⟩
  · exact hswitches ▸ hs
  · exact hedges ▸ he
  · rcases hc with hc | ⟨s, hs, hends⟩
    · obtain ⟨k, hk⟩ := mem_connections_iff.mp hc
      exact Or.inl (mem_connections_iff.mpr ⟨k, hedges ▸ hk⟩)
    · exact Or.inr ⟨s, hswitches ▸ hs, hends⟩

end Grown

end Wiring

namespace BusLayout

variable {l l' k : BusLayout} {f : String → String} {a b : String}

/-- A closed switch goes from the first bus to the second. -/
def Closes (l : BusLayout) (a b : String) : Prop :=
  ∃ s ∈ l.switches.values, s.isOpen = false ∧ s.bus1 = a ∧ s.bus2 = b

/-- A path of closed switches joins the buses. -/
def Joins (l : BusLayout) : String → String → Prop :=
  Relation.EqvGen l.Closes

/-- The second layout has all that the first one has, and joins its buses as it does. -/
structure Kept (l l' : BusLayout) : Prop where
  buses : ∀ (id : String) b, l.buses[id]? = some b → l'.buses[id]? = some b
  switches : ∀ (id : String) s, l.switches[id]? = some s → l'.switches[id]? = some s
  joins_iff : ∀ a ∈ l.buses, ∀ b ∈ l.buses, l'.Joins a b ↔ l.Joins a b

/-- The second layout has all that the first one has. What it closes besides folds
back to one bus. -/
structure Grown (f : String → String) (l l' : BusLayout) : Prop where
  buses : ∀ (id : String) b, l.buses[id]? = some b → l'.buses[id]? = some b
  switches : ∀ (id : String) s, l.switches[id]? = some s → l'.switches[id]? = some s
  closes : ∀ a b, l'.Closes a b → l.Closes a b ∨ f a = f b

namespace Grown

theorem refl (l : BusLayout) : l.Grown f l :=
  ⟨fun _ _ h => h, fun _ _ h => h, fun _ _ => Or.inl⟩

theorem trans (h : l.Grown f l') (h' : l'.Grown f k) : l.Grown f k where
  buses := fun id b hb => h'.buses id b (h.buses id b hb)
  switches := fun id s hs => h'.switches id s (h.switches id s hs)
  closes := fun a b hc => (h'.closes a b hc).elim (h.closes a b) Or.inr

theorem closes_of_closes (h : l.Grown f l') (hc : l.Closes a b) : l'.Closes a b := by
  obtain ⟨s, hs, hends⟩ := hc
  obtain ⟨id, hs⟩ := mem_values_iff.mp hs
  exact ⟨s, mem_values_iff.mpr ⟨id, h.switches id s hs⟩, hends⟩

theorem kept (h : l.Grown f l')
    (hends : ∀ (id : String) s, l.switches[id]? = some s → s.bus1 ∈ l.buses ∧ s.bus2 ∈ l.buses)
    (hfix : ∀ a ∈ l.buses, f a = a) : l.Kept l' where
  buses := h.buses
  switches := h.switches
  joins_iff := by
    intro a ha b hb
    refine eqvGen_iff_of_fold (p := (· ∈ l.buses)) (fun _ _ => h.closes_of_closes)
      (fun x y hc => ?_) hfix h.closes ha hb
    obtain ⟨s, hs, -, rfl, rfl⟩ := hc
    obtain ⟨id, hs⟩ := mem_values_iff.mp hs
    exact hends id s hs

theorem addBus {id : String} {bus : Bus} (hnew : id ∉ l.buses) :
    l.Grown f { l with buses := l.buses.insert id bus } where
  buses := by
    intro x b hb
    have hne : id ≠ x := fun he => hnew (he ▸ mem_iff_exists_getElem?.mpr ⟨b, hb⟩)
    rw [ExtTreeMap.getElem?_insert]
    simpa [hne] using hb
  switches := fun _ _ hs => hs
  closes := fun _ _ => Or.inl

theorem addSwitch {id : String} {s : BusSwitch} (hnew : id ∉ l.switches)
    (hs : f s.bus1 = f s.bus2) :
    l.Grown f { l with switches := l.switches.insert id s } where
  buses := fun _ _ hb => hb
  switches := by
    intro x y hy
    have hne : id ≠ x := fun he => hnew (he ▸ mem_iff_exists_getElem?.mpr ⟨y, hy⟩)
    rw [ExtTreeMap.getElem?_insert]
    simpa [hne] using hy
  closes := by
    rintro a b ⟨x, hx, hclosed, rfl, rfl⟩
    obtain ⟨y, hx⟩ := mem_values_iff.mp hx
    rw [ExtTreeMap.getElem?_insert] at hx
    split at hx
    · cases hx
      exact Or.inr hs
    · exact Or.inl ⟨x, mem_values_iff.mpr ⟨y, hx⟩, hclosed, rfl, rfl⟩

end Grown

end BusLayout

end Switchyard
