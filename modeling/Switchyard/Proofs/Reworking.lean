import Switchyard.Proofs.Inserting
import Switchyard.Proofs.Supply

namespace Switchyard

open Std Network Run Relation

/-- The edge is none of the switches. -/
def Edge.Outside (X : Set String) (e : Edge) : Prop :=
  ∀ id ∈ X, e.link ≠ .switch id

namespace Wiring

variable {base : Set Node} {X Z : Set String} {w u v : Wiring} {a b : Node} {id : String}

/-- A way leads from one node to the other past the switches. -/
abbrev LinkedWithout (w : Wiring) (X : Set String) : Node → Node → Prop :=
  ReflTransGen fun a c => ∃ e ∈ w.edgeList, e.Outside X ∧ e.Between a c

/-- Nothing is at the node but edges of the switches. -/
def Spare (w : Wiring) (X : Set String) (a : Node) : Prop :=
  a ∉ w.terminals ∧ ∀ e ∈ w.edgeList, e.Outside X → e.touches a = false

/-- The second wiring has the edges of the first one but for switches of `X`, of which
those of `Z` are gone. New edges run between nodes of `base` and spare ones. -/
structure Reworked (w : Wiring) (base : Set Node) (X Z : Set String) (u : Wiring) : Prop where
  kept : ∀ e ∈ w.edgeList, e.Outside X → e ∈ u.edgeList
  edge : ∀ e ∈ u.edgeList, e ∈ w.edgeList ∧ e.Outside Z ∨
    ∀ a, e.touches a = true → a ∈ base ∨ w.Spare X a
  terminal : ∀ a ∈ w.terminals, a ∈ u.terminals

namespace Reworked

theorem refl (w : Wiring) : w.Reworked base X ∅ w where
  kept := fun _ he _ => he
  edge := fun _ he => Or.inl ⟨he, fun _ hid => hid.elim⟩
  terminal := fun _ ha => ha

theorem spare_of_unplaced (h : w.Reworked base X Z u) (hu : u.Laid) (hout : a ∉ u.places) :
    w.Spare X a := by
  refine ⟨fun hin => hout (hu.terminal_placed a (h.terminal a hin)), fun e he hX => ?_⟩
  obtain ⟨k, hk⟩ := mem_values_iff.mp (h.kept e he hX)
  rw [Bool.eq_false_iff]
  exact fun ht => hout (hu.placed_of_touches hk ht)

theorem removeSwitch? (h : w.Reworked base X Z u) (hu : u.Sound) (hid : id ∈ X)
    (hok : u.removeSwitch? id = some v) : w.Reworked base X (insert id Z) v := by
  obtain ⟨s, number, hs, hnumber, hedges, -⟩ := hu.edges_removeSwitch? hok
  have hlink : s.edge.link = .switch id := by
    rw [← (hu.switch_edge id s hs).1]
    rfl
  have hmem : ∀ e, e ∈ v.edgeList ↔ ∃ k, number ≠ k ∧ u.edges[k]? = some e := fun e => by
    simp only [edgeList, mem_values_iff, hedges, ExtTreeMap.getElem?_erase, Std.compare_eq_iff_eq,
      Option.ite_none_left_eq_some, ne_eq]
  refine ⟨fun e he hX => ?_, fun e he => ?_, fun a ha => ?_⟩
  · obtain ⟨k, hk⟩ := mem_values_iff.mp (h.kept e he hX)
    refine (hmem e).mpr ⟨k, ?_, hk⟩
    rintro rfl
    cases hnumber.symm.trans hk
    exact hX id hid hlink
  · obtain ⟨k, hne, hk⟩ := (hmem e).mp he
    refine (h.edge e (mem_values_iff.mpr ⟨k, hk⟩)).imp_left fun hold => ⟨hold.1, ?_⟩
    rintro x (rfl | hx)
    · intro hl
      have hnumber' := (hu.switchArc_iff x number).mpr ⟨_, hnumber, hlink⟩
      have hk' := (hu.switchArc_iff x k).mpr ⟨e, hk, hl⟩
      exact hne (Option.some.inj (hnumber'.symm.trans hk'))
    · exact hold.2 x hx
  · obtain ⟨v', hv', -, -, hterminals, -⟩ := hu.removeSwitch? (mem_iff_exists_getElem?.mpr ⟨s, hs⟩)
    cases hok.symm.trans hv'
    rw [hterminals]
    exact h.terminal a ha

theorem addSwitch (h : w.Reworked base X Z u) (hu : u.Laid) {s : Switch}
    (h1 : s.node1 ∈ base ∨ w.Spare X s.node1) (h2 : s.node2 ∈ base ∨ w.Spare X s.node2) :
    w.Reworked base X Z (u.addSwitch s) where
  kept := fun e he hX => by
    obtain ⟨k, hk⟩ := mem_values_iff.mp (h.kept e he hX)
    refine mem_values_iff.mpr ⟨k, ?_⟩
    have hne : u.arcs.next ≠ k := fun hx => by
      rw [← hx, u.getElem?_edges_next] at hk
      cases hk
    rw [edges_addSwitch hu, ExtTreeMap.getElem?_insert, if_neg (by simpa using hne)]
    exact hk
  edge := fun e he => by
    obtain ⟨k, hk⟩ := mem_values_iff.mp he
    rw [edges_addSwitch hu, ExtTreeMap.getElem?_insert] at hk
    split at hk
    · cases hk
      refine Or.inr fun a ha => ?_
      rcases Edge.touches_iff.mp ha with rfl | rfl
      · exact h1
      · exact h2
    · exact h.edge e (mem_values_iff.mpr ⟨k, hk⟩)
  terminal := fun a ha => by
    rw [terminals_addSwitch]
    exact h.terminal a ha

theorem attach (h : w.Reworked base X Z u) (hu : u.Laid) {x : Attachment}
    (hok : u.attach a x = .ok v) : w.Reworked base X Z v := by
  obtain ⟨-, rfl⟩ := attach_eq_ok.mp hok
  have hedges : (u.ensureNode a).edgeList = u.edgeList :=
    congrArg ExtTreeMap.values (hu.edges_ensureNode a)
  refine ⟨fun e he hX => hedges.symm ▸ h.kept e he hX, fun e he => h.edge e (hedges ▸ he),
    fun b hb => ExtTreeMap.mem_insert.mpr (Or.inr (h.terminal b hb))⟩

/-- From a node that is not spare, a way that is left leads where one led before, or
to a node of `base`. -/
theorem linked_of_linked (h : w.Reworked base X X u) {r : Node} (ha : ¬w.Spare X a)
    (hr : r ∈ base ∨ w.Spare X r) (hlinked : u.Linked a r) :
    ∃ r' ∈ base, w.LinkedWithout X a r' := by
  induction hlinked using ReflTransGen.head_induction_on with
  | refl => exact ⟨r, hr.resolve_right ha, .refl⟩
  | @head x y hstep _ ih =>
    obtain ⟨e, he, hends⟩ := hstep
    rcases h.edge e he with ⟨hold, hX⟩ | hnew
    · have hy : ¬w.Spare X y := fun hspare => by
        have hfar := hspare.2 e hold hX
        rw [hends.touches_iff.mpr (Or.inr rfl)] at hfar
        cases hfar
      obtain ⟨r', hr', hway⟩ := ih hy
      exact ⟨r', hr', hway.head ⟨e, hold, hX, hends⟩⟩
    · exact ⟨x, (hnew x (hends.touches_iff.mpr (Or.inl rfl))).resolve_right ha, .refl⟩

theorem linked_of_linkedWithout (h : w.Reworked base X X u) (hlinked : w.LinkedWithout X a b) :
    u.Linked a b :=
  ReflTransGen.mono (fun _ _ ⟨e, he, hX, hends⟩ => ⟨e, h.kept e he hX, hends⟩) _ _ hlinked

end Reworked

end Wiring

namespace Network

variable {X Z : Set String} {n m k : Network} {vl id : String} {w : Wiring}

/-- The nodes that hold a busbar section of the voltage level. -/
def railNodes (n : Network) (vl : String) : Set Node :=
  {a | ∃ r, n.HasRail vl r ∧ r.node = a}

/-- The node is linked to a busbar section of its voltage level past the switches. -/
def SuppliedWithout (X : Set String) (n : Network) (vl : String) (node : Node) : Prop :=
  ∃ w rail, n.inside? vl = some (.nodeBreaker w) ∧ n.HasRail vl rail ∧
    w.LinkedWithout X node rail.node

/-- The second network is the first one but for the wiring of the voltage level, which is
reworked, and for new busbar sections at spare nodes of it. Switches of `X` are in no other
voltage level. -/
structure Reworked (n : Network) (vl : String) (w : Wiring) (X Z : Set String) (m : Network) :
    Prop where
  coherent : m.Coherent False
  inside : ∃ u, m.inside? vl = some (.nodeBreaker u) ∧ w.Reworked (n.railNodes vl) X Z u
  elsewhere : ∀ x, x ≠ vl → m.inside? x = n.inside? x
  rail : ∀ x r, n.HasRail x r → m.HasRail x r
  rail_new : ∀ x r, m.HasRail x r → n.HasRail x r ∨ x = vl ∧ w.Spare X r.node
  home : ∀ id ∈ X, ∀ x, m.index[id]? = some ⟨.switch, some x⟩ → x = vl

namespace Reworked

theorem refl (hn : n.Coherent False) (hw : n.inside? vl = some (.nodeBreaker w))
    (home : ∀ id ∈ X, ∀ x, n.index[id]? = some ⟨.switch, some x⟩ → x = vl) :
    n.Reworked vl w X ∅ n :=
  ⟨hn, ⟨w, hw, .refl w⟩, fun _ _ => rfl, fun _ _ h => h, fun _ _ h => Or.inl h, home⟩

theorem removeSwitch (h : n.Reworked vl w X Z m) (hid : id ∈ X)
    (hok : Edit.removeSwitch id m = .ok () k) : n.Reworked vl w X (insert id Z) k := by
  have hchange : (Edit.removeSwitch id).Is (.removeSwitch id) := Edit.is_return rfl
  obtain ⟨_, hperform⟩ := hchange.ok hok
  have hk := Change.coherent_of_ok _ rfl h.coherent hperform
  obtain ⟨x, t, hindex, rfl, hwiring, -⟩ := Edit.removeSwitch_eq_ok hok
  obtain ⟨u, hu, hrework⟩ := h.inside
  obtain rfl := h.home id hid x hindex
  obtain ⟨v, hremove, rfl⟩ := hwiring u hu
  have hinside : ∀ y, ((m.setTopology x (.nodeBreaker v)).forget id).inside? y =
      if x = y then (m.inside? y).map fun _ => .nodeBreaker v else m.inside? y :=
    fun y => inside?_setTopology m x _ y
  refine ⟨hk, ⟨v, ?_, hrework.removeSwitch? (h.coherent.sound x u hu) hid hremove⟩,
    fun y hy => ?_, h.rail, h.rail_new, fun y hy z hz => ?_⟩
  · rw [hinside, if_pos rfl, hu, Option.map_some]
  · rw [hinside, if_neg (Ne.symm hy)]
    exact h.elsewhere y hy
  · have hz : (m.index.erase id)[y]? = some ⟨.switch, some z⟩ := hz
    rw [ExtTreeMap.getElem?_erase] at hz
    split at hz
    · cases hz
    · exact h.home y hy z hz

variable {s t : Session} {naming : NamingStrategy} {a b : Node}

/-- The node is one that new edges may run to. -/
abbrev Opens (n : Network) (vl : String) (w : Wiring) (X : Set String) (a : Node) : Prop :=
  a ∈ n.railNodes vl ∨ w.Spare X a

theorem createSwitch (h : n.Reworked vl w X Z s.network) (ha : Opens n vl w X a)
    (hb : Opens n vl w X b) {kind : SwitchKind} {isOpen fictitious : Bool}
    (hok : Run.createSwitch vl kind id a b isOpen fictitious s = .ok () t) :
    n.Reworked vl w X Z t.network := by
  have hmade : (Run.createSwitch vl kind id a b isOpen fictitious).Inserts ∅ s :=
    makes_createSwitch trivial
  have ht := (hmade.preserves h.coherent hok).1
  obtain ⟨u, sw, hu, -, -, rfl, rfl, hnetwork⟩ := createSwitch_eq_ok hok
  rw [hnetwork] at ht ⊢
  obtain ⟨u', hu', hrework⟩ := h.inside
  cases hu.symm.trans hu'
  have hinside : ∀ y, ((s.network.register sw.id ⟨.switch, some vl⟩).setTopology vl
      (.nodeBreaker (u.addSwitch sw))).inside? y =
        if vl = y then (s.network.inside? y).map fun _ => .nodeBreaker (u.addSwitch sw)
        else s.network.inside? y :=
    fun y => inside?_setTopology _ vl _ y
  refine ⟨ht, ⟨u.addSwitch sw, ?_, ?_⟩, fun y hy => ?_, h.rail, h.rail_new, fun y hy z hz => ?_⟩
  · rw [hinside, if_pos rfl, hu, Option.map_some]
  · exact hrework.addSwitch (h.coherent.sound vl u hu).toLaid ha hb
  · rw [hinside, if_neg (Ne.symm hy)]
    exact h.elsewhere y hy
  · have hz : (s.network.index.insert sw.id ⟨.switch, some vl⟩)[y]? = some ⟨.switch, some z⟩ := hz
    rw [ExtTreeMap.getElem?_insert] at hz
    split at hz
    · cases hz
      rfl
    · exact h.home y hy z hz

theorem createSectionLink (h : n.Reworked vl w X Z s.network) (ha : Opens n vl w X a)
    (hb : Opens n vl w X b) {base : String} {kind : SwitchKind} {fictitious : Bool}
    (hroom : s.network.Room vl kind.linkNodes)
    (hok : Run.createSectionLink naming vl base kind a b fictitious s = .ok () t) :
    n.Reworked vl w X Z t.network := by
  obtain ⟨id, hok⟩ | ⟨u, id1, id2, id3, s1, s2, hkind, hu, h1, h2, h3⟩ :=
    createSectionLink_eq_ok hok
  · exact h.createSwitch ha hb hok
  · obtain ⟨u', hu', hrework⟩ := h.inside
    cases hu.symm.trans hu'
    rw [hkind] at hroom
    have hroom : s.network.Room vl 2 := hroom
    have hlaid := (h.coherent.sound vl u hu).toLaid
    have hfirst : Opens n vl w X u.nextNode :=
      Or.inr (hrework.spare_of_unplaced hlaid (hroom.unplaced_nextNode hu u hu))
    have hsecond : Opens n vl w X (u.nextNode + 1) :=
      Or.inr (hrework.spare_of_unplaced hlaid (hroom.unplaced (i := 1) (by decide) hu u hu))
    exact ((h.createSwitch ha hfirst h1).createSwitch hfirst hsecond h2).createSwitch hsecond hb h3

theorem links (h : n.Reworked vl w X Z s.network) (ha : Opens n vl w X a)
    (hb : Opens n vl w X b) {kind : SwitchKind} (hroom : s.network.Room vl kind.linkNodes)
    (hok : Links naming vl kind a b s t) : n.Reworked vl w X Z t.network := by
  obtain ⟨fictitious, hok | hok⟩ := hok
  · exact h.createSectionLink ha hb hroom hok
  · exact h.createSectionLink hb ha hroom hok

theorem createSection (h : n.Reworked vl w X Z m) {d : BusbarSectionDraft}
    (hvl : d.voltageLevel = vl) (hnode : w.Spare X d.node) (hok : d.create m = .ok id k) :
    n.Reworked vl w X Z k := by
  subst hvl
  have hchange : d.create.Is (.addBusbarSection d) := Edit.is_create rfl
  obtain ⟨_, hperform⟩ := hchange.ok hok
  have hk := Change.coherent_of_ok _ rfl h.coherent hperform
  obtain ⟨hid, u, v, hu, hattach, rfl⟩ := d.create_eq_ok hok
  obtain ⟨u', hu', hrework⟩ := h.inside
  cases hu.symm.trans hu'
  have hinside : ∀ y, (((m.register id ⟨.busbarSection, some d.voltageLevel⟩).setTopology
      d.voltageLevel (.nodeBreaker v)).put id (d.section id)).inside? y =
        if d.voltageLevel = y then (m.inside? y).map fun _ => .nodeBreaker v else m.inside? y :=
    fun y => (inside?_put _ _ _ y).trans (inside?_setTopology _ _ _ y)
  have hget : ∀ y : String, (((m.register id ⟨.busbarSection, some d.voltageLevel⟩).setTopology
      d.voltageLevel (.nodeBreaker v)).put id (d.section id)).busbarSections[y]? =
        if id = y then some ⟨id, d.name, d.voltageLevel, d.node, d.position⟩
        else m.busbarSections[y]? := fun y => by
    simp [Network.put, BusbarSectionDraft.section, ExtTreeMap.getElem?_insert]
    rfl
  refine ⟨hk, ⟨v, ?_, ?_⟩, fun y hy => ?_, fun y r hr => ?_, fun y r hr => ?_, fun y hy z hz => ?_⟩
  · rw [hinside, if_pos rfl, hu, Option.map_some]
  · exact hrework.attach (h.coherent.sound _ u hu).toLaid hattach
  · rw [hinside, if_neg (Ne.symm hy)]
    exact h.elsewhere y hy
  · obtain ⟨b, hb, hat⟩ := h.rail y r hr
    have hne : id ≠ r.id := fun he => h.coherent.stores_of_index hid _
      (.connectable (c := .busbarSection b) (he ▸ hb))
    exact ⟨b, by rwa [hget, if_neg hne], hat⟩
  · obtain ⟨b, hb, hlevel, hat⟩ := hr
    rw [hget] at hb
    split at hb
    · cases hb
      exact Or.inr ⟨hlevel.symm, hat ▸ hnode⟩
    · exact h.rail_new y r ⟨b, hb, hlevel, hat⟩
  · have hz : (m.index.insert id ⟨.busbarSection, some d.voltageLevel⟩)[y]? =
      some ⟨.switch, some z⟩ := hz
    rw [ExtTreeMap.getElem?_insert] at hz
    split at hz
    · cases hz
    · exact h.home y hy z hz

theorem removeSwitches (h : n.Reworked vl w X Z s.network) {ids : List String}
    (hids : ∀ id ∈ ids, id ∈ X) (hok : SectionInsertion.removeSwitches ids s = .ok () t) :
    n.Reworked vl w X (Z ∪ {id | id ∈ ids}) t.network := by
  induction ids generalizing s Z with
  | nil =>
    obtain ⟨-, rfl⟩ := pure_eq_ok.mp hok
    simpa using h
  | cons id rest ih =>
    obtain ⟨hid, hrest⟩ := List.forall_mem_cons.mp hids
    simp only [SectionInsertion.removeSwitches, bind_eq_ok, edit_eq_ok, emit_eq_ok] at hok
    obtain ⟨_, _, ⟨k, hremove, rfl⟩, _, _, rfl, hok⟩ := hok
    have hnext := ih (h.removeSwitch hid hremove) hrest hok
    have hall : insert id Z ∪ {x | x ∈ rest} = Z ∪ {x | x ∈ id :: rest} := by
      ext x
      simp only [Set.mem_union, Set.mem_insert_iff, Set.mem_ofPred_eq, List.mem_cons]
      tauto
    exact hall ▸ hnext

theorem setBusbarPosition (h : n.Reworked vl w X Z m) {p : Option BusbarPosition}
    (hok : Edit.setBusbarPosition id p m = .ok () k) : n.Reworked vl w X Z k := by
  have hchange : (Edit.setBusbarPosition id p).Is (.setBusbarPosition id p) := Edit.is_return rfl
  obtain ⟨_, hperform⟩ := hchange.ok hok
  have hk := Change.coherent_of_ok _ rfl h.coherent hperform
  obtain ⟨b, hb, rfl⟩ := Edit.setBusbarPosition_eq_ok hok
  have hrail : ∀ y r, (m.put id (.busbarSection { b with position := p })).HasRail y r ↔
      m.HasRail y r := fun y r => by
    have hget : (m.put id (.busbarSection { b with position := p })).busbarSections[r.id]? =
        if id = r.id then some { b with position := p } else m.busbarSections[r.id]? := by
      simp [Network.put, ExtTreeMap.getElem?_insert]
    unfold HasRail
    rw [hget]
    split
    next he =>
      rw [← he, hb]
      simp
    next => rfl
  refine ⟨hk, ?_, fun y hy => ?_, fun y r hr => (hrail y r).mpr (h.rail y r hr),
    fun y r hr => h.rail_new y r ((hrail y r).mp hr), fun y hy z hz => ?_⟩
  · rw [inside?_put]
    exact h.inside
  · rw [inside?_put]
    exact h.elsewhere y hy
  · rw [index_put] at hz
    exact h.home y hy z hz

theorem shift (h : n.Reworked vl w X Z s.network) {moves : List (String × BusbarPosition)}
    (hok : SectionInsertion.shift moves s = .ok () t) : n.Reworked vl w X Z t.network := by
  induction moves generalizing s with
  | nil =>
    obtain ⟨-, rfl⟩ := pure_eq_ok.mp hok
    exact h
  | cons move rest ih =>
    simp only [SectionInsertion.shift, bind_eq_ok, edit_eq_ok] at hok
    obtain ⟨_, _, ⟨k, hset, rfl⟩, hok⟩ := hok
    exact ih (h.setBusbarPosition hset) hok

theorem insertSection {c : SectionInsertion} (h : n.Reworked vl w X Z s.network) {e : Extension}
    (he : e.Railed n vl) (hX : ∀ id ∈ e.switches, id ∈ X) {count : Nat}
    (hroom : s.network.Room vl (count + c.nodeCount))
    (hok : c.insertSection naming vl e s = .ok () t) :
    n.Reworked vl w X (Z ∪ {id | id ∈ e.switches}) t.network := by
  obtain ⟨s1, p, u, id, s2, s3, hremove, hu, hout, hcreate, hnear, hroom1, hlast, -⟩ :=
    c.insertSection_room h.coherent (he.mono (h.rail vl)) hroom hok
  have h1 := h.removeSwitches hX hremove
  obtain ⟨u', hu', hrework⟩ := h1.inside
  cases hu.symm.trans hu'
  have hspare : w.Spare X u.nextNode :=
    hrework.spare_of_unplaced (h1.coherent.sound vl u hu).toLaid hout
  have h2 := h1.createSection rfl hspare hcreate
  have h3 := h2.links (Or.inl ⟨e.rail, he.rail, rfl⟩) (Or.inr hspare) hroom1 hnear
  rcases hlast with ⟨-, rfl⟩ | ⟨other, hother, hfar, hroom2⟩
  · exact h3
  · exact h3.links (Or.inr hspare) (Or.inl (he.neighbour other hother)) hroom2 hfar

theorem insertSections {c : SectionInsertion} (h : n.Reworked vl w X Z s.network)
    {es : List Extension} (hes : ∀ e ∈ es, e.Railed n vl ∧ ∀ id ∈ e.switches, id ∈ X)
    (hroom : s.network.Room vl (es.length * c.nodeCount))
    (hok : c.insertSections naming vl es s = .ok () t) :
    n.Reworked vl w X (Z ∪ {id | ∃ e ∈ es, id ∈ e.switches}) t.network := by
  induction es generalizing s Z with
  | nil =>
    obtain ⟨-, rfl⟩ := pure_eq_ok.mp hok
    simpa using h
  | cons e rest ih =>
    obtain ⟨⟨he, hX⟩, hrest⟩ := List.forall_mem_cons.mp hes
    rw [List.length_cons, Nat.succ_mul] at hroom
    simp only [SectionInsertion.insertSections, bind_eq_ok] at hok
    obtain ⟨_, u, hinsert, hok⟩ := hok
    have hleft := c.room_insertSection h.coherent (he.mono (h.rail vl)) hroom hinsert
    have hnext := ih (h.insertSection he hX hroom hinsert) hrest hleft hok
    have hall : Z ∪ {id | id ∈ e.switches} ∪ {id | ∃ e' ∈ rest, id ∈ e'.switches} =
        Z ∪ {id | ∃ e' ∈ e :: rest, id ∈ e'.switches} := by
      ext x
      simp only [Set.mem_union, Set.mem_ofPred_eq, List.mem_cons, exists_eq_or_imp, or_assoc]
    exact hall ▸ hnext

end Reworked

end Network

end Switchyard
