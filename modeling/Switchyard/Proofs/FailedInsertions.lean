import Switchyard.Proofs.AllOrNothing
import Switchyard.Proofs.Inserting
import Switchyard.Proofs.Neighbours

namespace Switchyard

open Std Network Run

variable {n : Network} {s t : Session} {naming : NamingStrategy} {vl id : String}

namespace SectionInsertion

theorem makes_findNeighbours {A : Change → Prop} (vl : String) (next : Option Int32)
    (rails : List (Rail × Int32)) : Makes A (findNeighbours vl next rails) s := by
  induction rails generalizing s with
  | nil => exact makes_pure []
  | cons x rest ih =>
    cases next with
    | none => exact ih.bind fun _ _ => makes_pure _
    | some j =>
      refine Makes.network_bind ((makes_lookUp _).bind fun w t => ?_)
      split
      · exact makes_refuse _
      · exact ih.bind fun _ _ => makes_pure _

theorem inserts_shiftSections {X : Set String} {first : Int32} :
    (shiftSections vl first).Inserts X s :=
  makes_shiftSections (fun _ _ => rfl) vl first

theorem sure_shiftSections (hs : s.network.Coherent False) {first : Int32} :
    (shiftSections vl first).Sure s := by
  refine Fails.network_bind ((sure_shift _ fun x hx => ?_).bind fun _ _ _ => fails_emit _)
  obtain ⟨⟨b, p⟩, hb, rfl⟩ := List.mem_map.mp hx
  exact hs.placed_of_mem (List.mem_of_mem_filter hb)

end SectionInsertion

namespace Network

theorem map_filter_placedSections (n : Network) (vl : String) (i : Int32) :
    ((n.placedSections vl).filter (·.2.sectionIndex == i)).map (·.1) =
      n.parallelSections vl i := by
  unfold placedSections parallelSections
  induction n.busbarSectionsIn vl with
  | nil => rfl
  | cons b rest ih =>
    cases hp : b.position with
    | none => simpa [hp] using ih
    | some p =>
      by_cases hi : p.sectionIndex = i <;> simpa [hp, hi] using ih

/-- The switch is on the way from the busbar section to the next one on its busbar,
at the section index. -/
def OnWay (n : Network) (b : BusbarSection) (sectionIndex : Int32) (id : String) : Prop :=
  ∃ w p found, n.wiring b.voltageLevel = .ok w ∧ b.position = some p ∧
    n.neighbour? w b.rail ⟨p.busbarIndex, sectionIndex⟩ = some found ∧ id ∈ found.switches

end Network

namespace SectionInsertion

/-- Two of the parallel busbar sections that new ones are put next to have the switch
on the ways to their neighbours. -/
def Contested (c : SectionInsertion) (n : Network) (id : String) : Prop :=
  c.allBusbars = true ∧ ∃ b reference next, n.busbarSections[c.busbarSection]? = some b ∧
    b.position = some reference ∧
    c.nextSection ((n.placedSections b.voltageLevel).map (·.2.sectionIndex))
      reference.sectionIndex = some next ∧
    ∃ b1 ∈ n.parallelSections b.voltageLevel reference.sectionIndex,
      ∃ b2 ∈ n.parallelSections b.voltageLevel reference.sectionIndex,
        b1 ≠ b2 ∧ n.OnWay b1 next id ∧ n.OnWay b2 next id

theorem nodup_extended (c : SectionInsertion) (hn : n.Coherent False) {b : BusbarSection}
    {reference : BusbarPosition} : ((c.extended n b reference).map (·.1)).Nodup := by
  unfold extended
  split
  · have hparallel := hn.nodup_parallelSections b.voltageLevel reference.sectionIndex
    rw [← n.map_filter_placedSections, List.map_map] at hparallel
    rw [List.map_map]
    exact hparallel
  · exact List.nodup_singleton _

theorem mem_extended (c : SectionInsertion) {b : BusbarSection} {reference : BusbarPosition}
    (hb : n.busbarSections[id]? = some b) (hp : b.position = some reference) {rail : Rail}
    {i : Int32} (hin : (rail, i) ∈ c.extended n b reference) :
    (c.allBusbars = false → rail = b.rail) ∧
      ∃ b' ∈ n.parallelSections b.voltageLevel reference.sectionIndex, ∃ p,
        b'.position = some p ∧ p.busbarIndex = i ∧ b'.rail = rail := by
  have hmem : ∀ b' p, (b', p) ∈ n.placedSections b.voltageLevel →
      p.sectionIndex = reference.sectionIndex →
      b' ∈ n.parallelSections b.voltageLevel reference.sectionIndex := fun b' p hplaced hi => by
    rw [← n.map_filter_placedSections]
    exact List.mem_map.mpr ⟨(b', p), List.mem_filter.mpr ⟨hplaced, by simpa using hi⟩, rfl⟩
  unfold extended at hin
  split at hin
  next hall =>
    obtain ⟨⟨b', p⟩, hx, he⟩ := List.mem_map.mp hin
    obtain ⟨rfl, rfl⟩ := Prod.mk.inj he
    obtain ⟨hplaced, hi⟩ := List.mem_filter.mp hx
    exact ⟨fun hnot => by simp [hall] at hnot, b', hmem b' p hplaced (by simpa using hi), p,
      (mem_placedSections.mp hplaced).2, rfl, rfl⟩
  next =>
    obtain ⟨rfl, rfl⟩ := Prod.mk.inj (List.mem_singleton.mp hin)
    have hlevel : b ∈ n.busbarSectionsIn b.voltageLevel :=
      List.mem_filter.mpr ⟨mem_values_iff.mpr ⟨id, hb⟩, by simp⟩
    exact ⟨fun _ => rfl, b, hmem b reference (mem_placedSections.mpr ⟨hlevel, hp⟩) rfl, reference,
      hp, rfl, rfl⟩

/-- What was found for a busbar section fits: it is there, and so are the switches
on its way. -/
theorem fits_of_found (hn : n.Coherent False) {e : Extension} {b : BusbarSection} {i : Int32}
    (hb : b ∈ n.parallelSections vl i) {p : BusbarPosition} (hp : b.position = some p)
    (hrail : b.rail = e.rail) {next : Option Int32} (hfinds : e.Finds n vl p.busbarIndex next) :
    e.Fits n vl ∧ ∀ id ∈ e.switches, n.index[id]? = some ⟨.switch, some vl⟩ := by
  have hreached : ∀ found, e.neighbour = some found → ∃ w,
      n.inside? vl = some (.nodeBreaker w) ∧ found.Reached n w := fun found hf => by
    obtain ⟨j, w, -, hw, hneighbour⟩ := hfinds found hf
    have hw := wiring_eq_ok_iff.mp hw
    exact ⟨w, hw, neighbour?_reached (hn.sound vl w hw) hneighbour⟩
  obtain ⟨x, hx⟩ := mem_values_iff.mp (List.mem_of_mem_filter (List.mem_of_mem_filter hb))
  obtain rfl : b.id = x := hn.connectable_id x (.busbarSection b) hx
  have hplaced : n.Placed b.rail.id := ⟨b, p, hx, hp⟩
  refine ⟨⟨⟨hrail ▸ hn.hasRail_of_parallel hb, fun other ho => ?_⟩, hrail ▸ hplaced, ?_⟩,
    fun id hway => ?_⟩
  · obtain ⟨w, hw, hfound⟩ := hreached other ho
    exact hn.hasRail_of_occupant hw hfound.rail
  · cases hf : e.neighbour with
    | none => simp [Extension.switches, hf]
    | some found =>
      obtain ⟨w, -, hfound⟩ := hreached found hf
      simpa [Extension.switches, hf] using hfound.nodup
  · obtain ⟨found, hf, hway⟩ := Extension.mem_switches.mp hway
    obtain ⟨w, hw, hfound⟩ := hreached found hf
    exact (hn.index_iff id _).mpr (.inside hw ⟨rfl, hfound.switches id hway⟩)

/-- What is found for a busbar section to extend. -/
def Found (c : SectionInsertion) (n : Network) (b : BusbarSection) (reference : BusbarPosition)
    (e : Extension) : Prop :=
  ∃ b' ∈ n.parallelSections b.voltageLevel reference.sectionIndex, ∃ p,
    b'.position = some p ∧ b'.rail = e.rail ∧ (c.allBusbars = false → e.rail = b.rail) ∧
    e.Finds n b.voltageLevel p.busbarIndex
      (c.nextSection ((n.placedSections b.voltageLevel).map (·.2.sectionIndex))
        reference.sectionIndex)

theorem contested_of_found (c : SectionInsertion) {b : BusbarSection} {reference : BusbarPosition}
    (hb : n.busbarSections[c.busbarSection]? = some b) (hp : b.position = some reference)
    {e e' : Extension} (he : c.Found n b reference e) (he' : c.Found n b reference e')
    (hne : e.rail ≠ e'.rail) (hid : id ∈ e.switches) (hid' : id ∈ e'.switches) :
    c.Contested n id := by
  obtain ⟨b1, hb1, p1, hp1, hrail1, halone1, hfinds1⟩ := he
  obtain ⟨b2, hb2, p2, hp2, hrail2, halone2, hfinds2⟩ := he'
  obtain ⟨found1, hf1, hway1⟩ := Extension.mem_switches.mp hid
  obtain ⟨found2, hf2, hway2⟩ := Extension.mem_switches.mp hid'
  obtain ⟨j, w, hnext, hw, hneighbour1⟩ := hfinds1 found1 hf1
  obtain ⟨j', w', hnext', hw', hneighbour2⟩ := hfinds2 found2 hf2
  cases hnext.symm.trans hnext'
  have hall : c.allBusbars = true := by
    by_contra hno
    rw [Bool.not_eq_true] at hno
    exact hne ((halone1 hno).trans (halone2 hno).symm)
  have hlevel : ∀ {x}, x ∈ n.parallelSections b.voltageLevel reference.sectionIndex →
      x.voltageLevel = b.voltageLevel := fun hx => by
    simpa using (List.mem_filter.mp (List.mem_of_mem_filter hx)).2
  refine ⟨hall, b, reference, j, hb, hp, hnext, b1, hb1, b2, hb2, fun heq => ?_,
    ⟨w, p1, found1, by rwa [hlevel hb1], hp1, by rwa [hrail1], hway1⟩,
    ⟨w', p2, found2, by rwa [hlevel hb2], hp2, by rwa [hrail2], hway2⟩⟩
  exact hne (hrail1.symm.trans (heq ▸ hrail2))

/-- Once the neighbours are found, only a contested switch can be missing, where there is room. -/
theorem fails_steps (c : SectionInsertion) (hs : s.network.Coherent False)
    (hroom : c.HasRoom s.network) (naming : NamingStrategy) :
    (c.steps naming).Fails s fun f t => t.network = s.network ∨
      ∃ id, f = .switchNotFound id ∧ c.Contested s.network id := by
  unfold steps
  refine Fails.check_bind (Or.inl rfl) fun _ => Fails.check_bind (Or.inl rfl) fun _ => ?_
  refine ((makes_busbarSection _).spares hs).or_bind fun b u hfind => ?_
  obtain ⟨hb, rfl⟩ := busbarSection_eq_ok hfind
  refine Fails.network_bind ?_
  dsimp only
  split
  next reference hposition =>
    have hp : b.position = some reference := (Prod.mk.inj hposition).1
    refine ((makes_findNeighbours _ _ _).spares hs).or_bind fun es u hes => ?_
    obtain ⟨rfl, hrails, hfound⟩ := findNeighbours_eq_ok hes
    have hrails : es.map (·.rail) = (c.extended s.network b reference).map (·.1) := hrails
    have hall : ∀ e ∈ es, c.Found s.network b reference e := fun e he => by
      obtain ⟨i, hin, hneighbour⟩ := hfound e he
      obtain ⟨halone, b', hb', p, hp', rfl, hrail⟩ := c.mem_extended hb hp hin
      exact ⟨b', hb', p, hp', hrail, halone, hneighbour⟩
    have hfits : ∀ e ∈ es, e.Fits s.network b.voltageLevel ∧
        ∀ id ∈ e.switches, s.network.index[id]? = some ⟨.switch, some b.voltageLevel⟩ := by
      intro e he
      obtain ⟨b', hb', p, hp', hrail, -, hneighbour⟩ := hall e he
      exact fits_of_found hs hb' hp' hrail hneighbour
    have hroom : s.network.Room b.voltageLevel (es.length * c.nodeCount) := by
      rw [← List.length_map (f := (·.rail)), hrails, List.length_map]
      exact hroom b hb reference hp
    have hinsert : ∀ u : Session, u.network.Coherent False →
        u.network.Room b.voltageLevel (es.length * c.nodeCount) →
        Preserves ∅ s.network u.network →
        (c.insertSections naming b.voltageLevel es).Fails u fun f t => t.network = s.network ∨
          ∃ id, f = .switchNotFound id ∧ c.Contested s.network id := by
      intro u hu hroom hkept
      have hnone := c.fails_insertSections naming [] es (hrails ▸ c.nodup_extended hs)
        (fun e he => (hfits e he).1) (fun e he => (hfits e he).2) hu hroom
        (hkept.mono (Set.empty_subset _))
      refine hnone.mono fun f _ hx => ?_
      obtain ⟨id, rfl, e, he, e', he', hne, hid, hid'⟩ := hx
      exact Or.inr ⟨id, rfl, c.contested_of_found hb hp (hall e he) (hall e' he') hne hid hid'⟩
    split
    next first _ =>
      refine (sure_shiftSections hs).fails.bind fun _ t ht => ?_
      have hroom := room_shiftSections hs hroom ht
      obtain ⟨ht, hkept⟩ := inserts_shiftSections.preserves (X := ∅) hs ht
      exact hinsert t ht hroom hkept
    next => exact hinsert s hs hroom (.refl ∅ _)
  next => exact fails_refuse (Or.inl rfl)

end SectionInsertion

namespace Modification

/-- In every network that can come about, an insertion of sections that fails changes
nothing, unless a switch is missing that was on the ways of two of the sections, if there is
room for the new nodes. -/
theorem unchanged_or_contested (id : String) (serial : Nat) (ops : List Operation)
    {c : SectionInsertion} (hroom : c.HasRoom ((empty id serial).after ops))
    {naming : NamingStrategy} {strict : Bool}
    (hfail : ¬((sectionInsertion c).apply ((empty id serial).after ops) naming strict).Succeeds) :
    ((sectionInsertion c).apply ((empty id serial).after ops) naming strict).network.listing =
        ((empty id serial).after ops).listing ∨
      ∃ x, ((sectionInsertion c).apply ((empty id serial).after ops) naming strict).Reports
          (.switchNotFound x) ∧ c.Contested ((empty id serial).after ops) x := by
  have hn := (coherent_empty False id serial).after ops False.elim
  have htraced : Run.Traced False (fun _ => False) (c.steps naming)
      ⟨(empty id serial).after ops, []⟩ fun _ _ => True := c.traced_steps naming fun _ h => h
  rcases Run.unchanged_or_reported htraced hn
      (c.fails_steps (s := ⟨_, []⟩) hn hroom naming) hfail with
    hsame | ⟨f, hreport, x, rfl, hcontested⟩
  · exact Or.inl (congrArg listing hsame)
  · exact Or.inr ⟨x, hreport, hcontested⟩

/-- Two busbars of two sections each, coupled between the sections by one switch. -/
def coupledBusbars : List Operation :=
  [.change (.addVoltageLevel { id := "V" }),
    .change (.addBusbarSection
      { voltageLevel := "V", id := "A1", node := 0, position := some ⟨1, 1⟩ }),
    .change (.addBusbarSection
      { voltageLevel := "V", id := "A2", node := 1, position := some ⟨2, 1⟩ }),
    .change (.addBusbarSection
      { voltageLevel := "V", id := "B1", node := 2, position := some ⟨1, 2⟩ }),
    .change (.addBusbarSection
      { voltageLevel := "V", id := "B2", node := 3, position := some ⟨2, 2⟩ }),
    .change (.addSwitch { voltageLevel := "V", id := "DA1", node1 := 0, node2 := 4 }),
    .change (.addSwitch { voltageLevel := "V", id := "DA2", node1 := 1, node2 := 4 }),
    .change (.addSwitch { voltageLevel := "V", id := "K", node1 := 4, node2 := 5 }),
    .change (.addSwitch { voltageLevel := "V", id := "DB1", node1 := 5, node2 := 2 }),
    .change (.addSwitch { voltageLevel := "V", id := "DB2", node1 := 5, node2 := 3 })]

/-- A section is to come after the first ones on both busbars. -/
def innerSections : SectionInsertion where
  busbarSection := "A1"
  after := true
  allBusbars := true
  left := {}
  right := {}

theorem unchanged_or_contested_coupledBusbars :
    ((sectionInsertion innerSections).apply ((empty "N" 0).after coupledBusbars) .standard
        true).network.listing = ((empty "N" 0).after coupledBusbars).listing ∨
      ∃ x, ((sectionInsertion innerSections).apply ((empty "N" 0).after coupledBusbars) .standard
          true).Reports (.switchNotFound x) ∧
        innerSections.Contested ((empty "N" 0).after coupledBusbars) x :=
  unchanged_or_contested "N" 0 coupledBusbars (c := innerSections) (by decide +kernel)
    (by decide +kernel)

/-- The insertion fails at the second busbar, when the sections are renumbered and the
first busbar is done. -/
theorem changed_of_coupledBusbars :
    ¬((sectionInsertion innerSections).apply ((empty "N" 0).after coupledBusbars) .standard
        true).Succeeds ∧
      ((sectionInsertion innerSections).apply ((empty "N" 0).after coupledBusbars) .standard
        true).network.listing ≠ ((empty "N" 0).after coupledBusbars).listing := by
  refine ⟨by decide +kernel, fun hsame => ?_⟩
  have hpositions := congrArg (·.busbarSections.map (·.position)) hsame
  revert hpositions
  decide +kernel

end Modification

end Switchyard
