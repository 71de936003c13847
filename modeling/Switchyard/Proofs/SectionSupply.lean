import Switchyard.Proofs.Reworking
import Switchyard.Proofs.SectionIndices

namespace Switchyard

open Std Network Run Relation

variable {X : Set String} {n m : Network} {s t : Session} {naming : NamingStrategy}
  {vl id : String} {w : Wiring}

namespace Network

theorem Coherent.linkedWithout_of_linked (hn : n.Coherent False)
    (hX : ∀ id ∈ X, n.index[id]? = some ⟨.switch, some vl⟩) {y : String} (hy : y ≠ vl) {u : Wiring}
    (hu : n.inside? y = some (.nodeBreaker u)) {a b : Node} (h : u.Linked a b) :
    u.LinkedWithout X a b := by
  refine ReflTransGen.mono (fun p q ⟨e, he, hends⟩ => ⟨e, he, fun id hid hl => ?_, hends⟩) _ _ h
  obtain ⟨k, hk⟩ := mem_values_iff.mp he
  obtain ⟨sw, hsw, -⟩ := (hn.sound y u hu).switch_of_edge hk hl
  have hheld : (Topology.nodeBreaker u).Holds id .switch :=
    ⟨rfl, mem_iff_exists_getElem?.mpr ⟨sw, hsw⟩⟩
  have hindex := (hn.index_iff id _).mpr (.inside hu hheld)
  rw [hX id hid] at hindex
  cases hindex
  exact hy rfl

/-- Once the switches are gone, equipment is linked to a busbar section exactly if it was
past them. -/
theorem Reworked.supplied_iff (h : n.Reworked vl w X X m) (hn : n.Coherent False)
    (hw : n.inside? vl = some (.nodeBreaker w))
    (hX : ∀ id ∈ X, n.index[id]? = some ⟨.switch, some vl⟩) {y : String} {node : Node}
    {a : Attachment} (ha : n.HoldsAt y node a) :
    m.Supplied y node ↔ n.SuppliedWithout X y node := by
  by_cases hy : y = vl
  · subst hy
    obtain ⟨u, hu, hrework⟩ := h.inside
    obtain ⟨w', hw', hterminal⟩ := ha
    cases hw.symm.trans hw'
    have hbusy : ¬w.Spare X node := fun hspare =>
      hspare.1 (mem_iff_exists_getElem?.mpr ⟨a, hterminal⟩)
    constructor
    · rintro ⟨u', rail, hu', hrail, hlinked⟩
      cases hu.symm.trans hu'
      have hend : rail.node ∈ n.railNodes y ∨ w.Spare X rail.node :=
        (h.rail_new y rail hrail).imp (fun hold => ⟨rail, hold, rfl⟩) And.right
      obtain ⟨_, ⟨r, hr, rfl⟩, hway⟩ := hrework.linked_of_linked hbusy hend hlinked
      exact ⟨w, r, hw, hr, hway⟩
    · rintro ⟨w', rail, hw', hrail, hway⟩
      cases hw.symm.trans hw'
      exact ⟨u, rail, hu, h.rail y rail hrail, hrework.linked_of_linkedWithout hway⟩
  · have hsame := h.elsewhere y hy
    constructor
    · rintro ⟨u, rail, hu, hrail, hlinked⟩
      rw [hsame] at hu
      have hold := (h.rail_new y rail hrail).resolve_right fun hnew => hy hnew.1
      exact ⟨u, rail, hu, hold, hn.linkedWithout_of_linked hX hy hu hlinked⟩
    · rintro ⟨u, rail, hu, hrail, hway⟩
      refine ⟨u, rail, hsame.trans hu, h.rail y rail hrail, ?_⟩
      exact ReflTransGen.mono (fun _ _ ⟨e, he, _, hends⟩ => ⟨e, he, hends⟩) _ _ hway

end Network

namespace SectionInsertion

variable (c : SectionInsertion) {b : BusbarSection} {reference : BusbarPosition}

/-- What is found for each busbar section is its neighbour at the next section index. -/
theorem findNeighbours_eq {next : Option Int32} {rails : List (Rail × Int32)} {es : List Extension}
    (hw : s.network.wiring vl = .ok w) (h : findNeighbours vl next rails s = .ok es t) :
    es = rails.map fun x => ⟨x.1, next.bind fun j => s.network.neighbour? w x.1 ⟨x.2, j⟩⟩ := by
  induction rails generalizing s t es with
  | nil => exact (pure_eq_ok.mp h).1.symm
  | cons x rest ih =>
    obtain ⟨rail, i⟩ := x
    cases next with
    | none =>
      simp only [findNeighbours, bind_eq_ok, pure_eq_ok] at h
      obtain ⟨more, u, hmore, rfl, rfl⟩ := h
      rw [ih hw hmore]
      rfl
    | some j =>
      simp only [findNeighbours, bind_eq_ok, network_eq_ok, lookUp_eq_ok] at h
      obtain ⟨_, _, ⟨rfl, rfl⟩, w', _, ⟨hw', rfl⟩, h⟩ := h
      cases hw.symm.trans hw'
      cases hfound : s.network.neighbour? w rail ⟨i, j⟩ with
      | none =>
        rw [hfound] at h
        exact (refuse_eq_ok.mp h).elim
      | some found =>
        rw [hfound] at h
        simp only [bind_eq_ok, pure_eq_ok] at h
        obtain ⟨more, u, hmore, rfl, rfl⟩ := h
        rw [ih hw hmore, List.map_cons, Option.bind_some, hfound]

/-- The switch is on a way that the insertion replaces: the one found from a busbar section
that a new one is put next to, to the next section on its busbar. -/
def Replaces (c : SectionInsertion) (n : Network) (id : String) : Prop :=
  ∃ b reference next, n.busbarSections[c.busbarSection]? = some b ∧ b.position = some reference ∧
    c.nextSection ((n.placedSections b.voltageLevel).map (·.2.sectionIndex))
      reference.sectionIndex = some next ∧
    ∃ b' ∈ c.besides n b reference, n.OnWay b' next id

theorem mem_extended_iff (hp : b.position = some reference) {rail : Rail} {i : Int32} :
    (rail, i) ∈ c.extended n b reference ↔ ∃ b' ∈ c.besides n b reference, ∃ p,
      b'.position = some p ∧ p.busbarIndex = i ∧ b'.rail = rail := by
  unfold extended besides
  split
  · rw [← map_filter_placedSections]
    simp only [List.mem_map, List.mem_filter, Prod.exists, Prod.mk.injEq]
    constructor
    · rintro ⟨b', p, ⟨hplaced, hi⟩, rfl, rfl⟩
      exact ⟨b', ⟨b', p, ⟨hplaced, hi⟩, rfl⟩, p, (mem_placedSections.mp hplaced).2, rfl, rfl⟩
    · rintro ⟨_, ⟨b', p, ⟨hplaced, hi⟩, rfl⟩, q, hq, rfl, rfl⟩
      cases (mem_placedSections.mp hplaced).2.symm.trans hq
      exact ⟨b', p, ⟨hplaced, hi⟩, rfl, rfl⟩
  · simp only [List.mem_singleton, Prod.mk.injEq]
    constructor
    · rintro ⟨rfl, rfl⟩
      exact ⟨b, rfl, reference, hp, rfl, rfl⟩
    · rintro ⟨_, rfl, p, hq, rfl, rfl⟩
      cases hp.symm.trans hq
      exact ⟨rfl, rfl⟩

theorem mem_switches_iff (hs : s.network.Coherent False)
    (hb : s.network.busbarSections[c.busbarSection]? = some b) (hp : b.position = some reference)
    (hw : s.network.inside? b.voltageLevel = some (.nodeBreaker w)) {es : List Extension}
    (h : findNeighbours b.voltageLevel
      (c.nextSection ((s.network.placedSections b.voltageLevel).map (·.2.sectionIndex))
        reference.sectionIndex) (c.extended s.network b reference) s = .ok es t) :
    (∃ e ∈ es, id ∈ e.switches) ↔ c.Replaces s.network id := by
  have hes := findNeighbours_eq (wiring_eq_ok_iff.mpr hw) h
  constructor
  · rintro ⟨e, he, hid⟩
    obtain ⟨found, hfound, hway⟩ := Extension.mem_switches.mp hid
    rw [hes] at he
    obtain ⟨⟨rail, i⟩, hin, rfl⟩ := List.mem_map.mp he
    obtain ⟨next, hnext, hneighbour⟩ := Option.bind_eq_some_iff.mp hfound
    obtain ⟨b', hb', p, hp', rfl, rfl⟩ := (c.mem_extended_iff hp).mp hin
    have hvl := (of_mem_besides hs hb hp hb').2.1
    exact ⟨b, reference, next, hb, hp, hnext, b', hb', w, p, found,
      by rw [hvl]; exact wiring_eq_ok_iff.mpr hw, hp', hneighbour, hway⟩
  · rintro ⟨b1, reference1, next, hb1, hp1, hnext, b', hb', w', p, found, hw', hp', hneighbour,
      hway⟩
    cases hb.symm.trans hb1
    cases hp.symm.trans hp1
    rw [(of_mem_besides hs hb hp hb').2.1, wiring_eq_ok_iff] at hw'
    cases hw.symm.trans hw'
    refine ⟨⟨b'.rail, some found⟩, ?_, Extension.mem_switches.mpr ⟨found, rfl, hway⟩⟩
    rw [hes]
    refine List.mem_map.mpr ⟨(b'.rail, p.busbarIndex), ?_, ?_⟩
    · exact (c.mem_extended_iff hp).mpr ⟨b', hb', p, hp', rfl, rfl⟩
    · simp only [hnext, Option.bind_some, hneighbour]

theorem reworked_of_steps (hs : s.network.Coherent False) (hroom : c.HasRoom s.network)
    (h : c.steps naming s = .ok () t) :
    ∃ vl w, s.network.inside? vl = some (.nodeBreaker w) ∧
      (∀ id, c.Replaces s.network id → s.network.index[id]? = some ⟨.switch, some vl⟩) ∧
      s.network.Reworked vl w {id | c.Replaces s.network id} {id | c.Replaces s.network id}
        t.network := by
  obtain ⟨b, reference, es, u, hb, hp, -, hes, hshift, hinsert⟩ := c.steps_eq_ok h
  obtain ⟨w, hw⟩ := (hs.hasRail hb).wiring hs
  obtain ⟨-, hrails, hfound⟩ := findNeighbours_eq_ok hes
  have hreplaces : ∀ id, (∃ e ∈ es, id ∈ e.switches) ↔ c.Replaces s.network id := fun id =>
    c.mem_switches_iff hs hb hp hw hes
  have hfits : ∀ e ∈ es, e.Fits s.network b.voltageLevel ∧
      ∀ id ∈ e.switches, s.network.index[id]? = some ⟨.switch, some b.voltageLevel⟩ := by
    intro e he
    obtain ⟨i, hin, hneighbour⟩ := hfound e he
    obtain ⟨-, b', hb', p, hp', rfl, hrail⟩ := c.mem_extended hb hp hin
    exact fits_of_found hs hb' hp' hrail hneighbour
  have hindex : ∀ id, c.Replaces s.network id →
      s.network.index[id]? = some ⟨.switch, some b.voltageLevel⟩ := fun id hid => by
    obtain ⟨e, he, hway⟩ := (hreplaces id).mpr hid
    exact (hfits e he).2 id hway
  have hstart : s.network.Reworked b.voltageLevel w {id | c.Replaces s.network id} ∅ s.network :=
    .refl hs hw fun id hid x hx => by
      rw [hindex id hid] at hx
      cases hx
      rfl
  have hshifted : s.network.Reworked b.voltageLevel w {id | c.Replaces s.network id} ∅
      u.network := by
    split at hshift
    · simp only [shiftSections, bind_eq_ok, network_eq_ok, emit_eq_ok] at hshift
      obtain ⟨_, _, ⟨rfl, rfl⟩, _, v, hmoved, rfl⟩ := hshift
      have hlater := hstart.shift hmoved
      exact hlater
    · exact hshift ▸ hstart
  have hroom : u.network.Room b.voltageLevel (es.length * c.nodeCount) := by
    have hlength : es.length = (c.extended s.network b reference).length := by
      rw [← List.length_map (f := (·.rail)), hrails, List.length_map]
    have hroom := hlength ▸ hroom b hb reference hp
    split at hshift
    · exact room_shiftSections hs hroom hshift
    · exact hshift ▸ hroom
  have hdone := hshifted.insertSections (fun e he =>
    ⟨(hfits e he).1.toRailed, fun id hid => (hreplaces id).mp ⟨e, he, hid⟩⟩) hroom hinsert
  have hall : ∅ ∪ {id | ∃ e ∈ es, id ∈ e.switches} = {id | c.Replaces s.network id} := by
    rw [Set.empty_union]
    exact Set.ext hreplaces
  exact ⟨b.voltageLevel, w, hw, hindex, hall ▸ hdone⟩

end SectionInsertion

namespace Modification

/-- In every network that can come about, an insertion of sections that succeeds leaves
equipment linked to a busbar section exactly if it was linked to one past the switches on
the ways that the insertion replaces, if there is room for the new nodes. -/
theorem supplied_iff_past_ways (id : String) (serial : Nat) (ops : List Operation)
    {c : SectionInsertion} (hroom : c.HasRoom ((empty id serial).after ops))
    {naming : NamingStrategy} {strict : Bool}
    (h : ((sectionInsertion c).apply ((empty id serial).after ops) naming strict).Succeeds)
    {x : String} {d : Connectable} (hd : ((empty id serial).after ops).connectable? x = some d)
    {side : Side} {vl : String} {node : Node} (hside : (side, .atNode vl node) ∈ d.terminals) :
    ((sectionInsertion c).apply ((empty id serial).after ops) naming strict).network.Supplied
        vl node ↔
      ((empty id serial).after ops).SuppliedWithout
        {y | c.Replaces ((empty id serial).after ops) y} vl node := by
  have hn := (coherent_empty False id serial).after ops False.elim
  obtain ⟨t, ht, hend⟩ := ok_of_succeeds h
  have hend : ((sectionInsertion c).apply ((empty id serial).after ops) naming strict).network =
      t.network := hend
  obtain ⟨level, w, hw, hindex, hrework⟩ :=
    c.reworked_of_steps (s := ⟨(empty id serial).after ops, []⟩) hn hroom ht
  have hkeeps := keeps_of_connectable? hd
  have hheld := (hn.holdsAt_iff vl node ⟨x, side⟩).mpr ⟨d, hkeeps, hside⟩
  rw [hend]
  exact hrework.supplied_iff hn hw hindex hheld

/-- Two sections of a busbar, with a load that branches off between the two switches that
join them. -/
def forkedWay : List Operation :=
  [.change (.addVoltageLevel { id := "V" }),
    .change (.addBusbarSection
      { voltageLevel := "V", id := "A", node := 0, position := some ⟨1, 1⟩ }),
    .change (.addBusbarSection
      { voltageLevel := "V", id := "B", node := 1, position := some ⟨1, 2⟩ }),
    .change (.addConnectable (.injection
      { owner := 0, id := "LD", terminal := some (.atNode "V" 5) })),
    .change (.addSwitch { voltageLevel := "V", id := "K1", node1 := 0, node2 := 4 }),
    .change (.addSwitch { voltageLevel := "V", id := "K2", node1 := 4, node2 := 1 }),
    .change (.addSwitch { voltageLevel := "V", id := "K3", node1 := 4, node2 := 5 })]

/-- A section is to come between the two. -/
def betweenSections : SectionInsertion where
  busbarSection := "A"
  after := true
  allBusbars := false
  left := {}
  right := {}

theorem load_forkedWay :
    ∃ d, ((empty "N" 0).after forkedWay).connectable? "LD" = some d ∧
      d.isBusbarSection = false ∧ (.one, .atNode "V" 5) ∈ d.terminals := by
  have hload : (((empty "N" 0).after forkedWay).connectable? "LD").map
      (fun d => (d.isBusbarSection, d.terminals)) = some (false, [(.one, .atNode "V" 5)]) := by
    decide +kernel
  obtain ⟨d, hd, hat⟩ := Option.map_eq_some_iff.mp hload
  obtain ⟨hdb, hterminals⟩ := Prod.mk.inj hat
  exact ⟨d, hd, hdb, hterminals ▸ List.mem_singleton_self _⟩

theorem supplied_iff_past_ways_forkedWay :
    ((sectionInsertion betweenSections).apply ((empty "N" 0).after forkedWay) .standard
        true).Succeeds ∧
      betweenSections.HasRoom ((empty "N" 0).after forkedWay) ∧
      ∃ d, ((empty "N" 0).after forkedWay).connectable? "LD" = some d ∧
        (.one, .atNode "V" 5) ∈ d.terminals ∧
        (((sectionInsertion betweenSections).apply ((empty "N" 0).after forkedWay) .standard
            true).network.Supplied "V" 5 ↔
          ((empty "N" 0).after forkedWay).SuppliedWithout
            {y | betweenSections.Replaces ((empty "N" 0).after forkedWay) y} "V" 5) := by
  have h : ((sectionInsertion betweenSections).apply ((empty "N" 0).after forkedWay) .standard
      true).Succeeds := by
    decide +kernel
  obtain ⟨d, hd, -, hside⟩ := load_forkedWay
  have hroom : betweenSections.HasRoom ((empty "N" 0).after forkedWay) := by
    decide +kernel
  exact ⟨h, hroom, d, hd, hside, supplied_iff_past_ways "N" 0 forkedWay hroom h hd hside⟩

/-- The insertion replaces both switches of the way, and cuts off the load between them. -/
theorem unsupplied_forkedWay :
    ((sectionInsertion betweenSections).apply ((empty "N" 0).after forkedWay) .standard
        true).Succeeds ∧
      ∃ d, ((empty "N" 0).after forkedWay).connectable? "LD" = some d ∧
        d.isBusbarSection = false ∧ (.one, .atNode "V" 5) ∈ d.terminals ∧
        ((empty "N" 0).after forkedWay).Supplied "V" 5 ∧
        ¬((sectionInsertion betweenSections).apply ((empty "N" 0).after forkedWay) .standard
            true).network.Supplied "V" 5 := by
  have hbefore : (((empty "N" 0).after forkedWay).wiring "V").toOption.map (·.edgeList) =
      some [⟨0, 4, .switch "K1"⟩, ⟨4, 1, .switch "K2"⟩, ⟨4, 5, .switch "K3"⟩] := by
    decide +kernel
  have hrail : ((empty "N" 0).after forkedWay).busbarSections["A"]?.map
      (fun b => (b.voltageLevel, b.node)) = some ("V", 0) := by
    decide +kernel
  have hafter : (((sectionInsertion betweenSections).apply ((empty "N" 0).after forkedWay) .standard
      true).network.wiring "V").toOption.map (·.edgeList.map fun e => (e.node1, e.node2)) =
      some [(0, 6), (6, 1), (4, 5)] := by
    decide +kernel
  have hrails : ∀ b ∈ ((sectionInsertion betweenSections).apply ((empty "N" 0).after forkedWay)
      .standard true).network.busbarSections.values, b.node ≠ 4 ∧ b.node ≠ 5 := by
    decide +kernel
  obtain ⟨d, hd, hdb, hside⟩ := load_forkedWay
  refine ⟨by decide +kernel, d, hd, hdb, hside, ?_, ?_⟩
  · obtain ⟨b, hb, hat⟩ := Option.map_eq_some_iff.mp hrail
    obtain ⟨w, hw, hedges⟩ := exists_wiring_of_map hbefore
    refine ⟨w, ⟨"A", 0⟩, hw, ⟨b, hb, by simp_all⟩, ?_⟩
    have hfork : w.Linked 5 4 :=
      .single ⟨⟨4, 5, .switch "K3"⟩, by simp [hedges], Or.inr ⟨rfl, rfl⟩⟩
    exact hfork.tail ⟨⟨0, 4, .switch "K1"⟩, by simp [hedges], Or.inr ⟨rfl, rfl⟩⟩
  · rintro ⟨w, rail, hw, ⟨b, hb, -, hnode⟩, hlinked⟩
    rw [wiring_eq_ok_iff.mpr hw] at hafter
    have hends : w.edgeList.map (fun e => (e.node1, e.node2)) = _ := Option.some.inj hafter
    -- No edge leaves the two nodes.
    have hclosed : ∀ z, w.Linked 5 z → z = 4 ∨ z = 5 := by
      intro z hz
      induction hz with
      | refl => exact Or.inr rfl
      | tail _ hstep ih =>
        obtain ⟨e, he, hends'⟩ := hstep
        have hin : (e.node1, e.node2) ∈ [(0, 6), (6, 1), (4, 5)] :=
          hends ▸ List.mem_map_of_mem he
        simp only [List.mem_cons, Prod.mk.injEq, List.not_mem_nil, or_false] at hin
        unfold Edge.Between at hends'
        grind
    have hno := hrails b (mem_values_iff.mpr ⟨_, hb⟩)
    rcases hclosed _ hlinked with hz | hz
    · exact hno.1 (hnode.trans hz)
    · exact hno.2 (hnode.trans hz)

end Modification

end Switchyard
