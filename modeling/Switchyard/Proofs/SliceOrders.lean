import Switchyard.Proofs.FeederOrders
import Switchyard.Proofs.NewFeeders
import Switchyard.Proofs.SliceRanges

namespace Switchyard

open Std Network

variable {n m : Network} {w w' : Wiring} {c : Connectable} {b : LaidBay} {i s : Int32}
  {a y z : Node} {x vl : String} {e : Edge} {start : BusbarSection} {p : BusbarPosition}

theorem LaidBay.ends_of_mem {x : Switch} (hx : x ∈ b.switches) :
    b.Takes b.voltageLevel x.node1 ∧
      (b.Takes b.voltageLevel x.node2 ∨ ∃ r ∈ b.rails, r.node = x.node2) := by
  rcases List.mem_cons.mp hx with rfl | hx
  · obtain ⟨-, hnode1, hnode2⟩ := b.first_ends
    exact ⟨⟨rfl, Or.inl hnode1.symm⟩, Or.inl ⟨rfl, Or.inr hnode2.symm⟩⟩
  · obtain ⟨-, hnode1, r, hr, hnode2⟩ := LaidBay.others_ends hx
    exact ⟨⟨rfl, Or.inr hnode1.symm⟩, Or.inr ⟨r, hr, hnode2.symm⟩⟩

theorem Connectable.terminals_eq_singleton {u : Terminal} (hsides : c.terminals.map (·.1) = [.one])
    (hu : c.terminal? .one = some u) : c.terminals = [(.one, u)] := by
  obtain ⟨⟨side, v⟩, hterminals, rfl⟩ := List.map_eq_singleton_iff.mp hsides
  have hin := Connectable.terminal?_eq_some_iff.mp hu
  rw [hterminals, List.mem_singleton] at hin
  rw [hterminals, hin]

namespace Network

/-- The second network is the first one with an injection besides, on a bay that leads to
busbar sections of section index `s`. The wirings are those of its voltage level. -/
structure Hung (n m : Network) (w w' : Wiring) (c : Connectable) (b : LaidBay) (s : Int32) :
    Prop where
  extended : Extended ∅ (laid [b]) {c} n m
  fits : b.Fits n
  wiring_old : n.inside? b.voltageLevel = some (.nodeBreaker w)
  wiring_new : m.inside? b.voltageLevel = some (.nodeBreaker w')
  terminals_eq : c.terminals = [(.one, .atNode b.voltageLevel b.nodes.equipment)]
  placed : ∀ r ∈ b.rails, ∃ x q, (x, q) ∈ n.placedSections b.voltageLevel ∧ q.sectionIndex = s ∧
    x.rail = r
  rails_ne : b.rails ≠ []

namespace Hung

variable (h : Hung n m w w' c b s)
include h

theorem augmented : w.Sound ∧ w'.Sound ∧ w.Augmented (switchesAt (laid [b]) b.voltageLevel)
    (terminalsAt (attachments {c}) b.voltageLevel) w' := by
  obtain ⟨_, hw', hs, hs', ha⟩ :=
    h.extended.toWired.of_wiring (Set.notMem_empty _) h.wiring_old
  cases h.wiring_new.symm.trans hw'
  exact ⟨hs, hs', ha⟩

theorem not_takes (ha : a ∈ w.places) : ¬b.Takes b.voltageLevel a := by
  obtain ⟨_, hw, hequipment, hfork⟩ := h.fits.wired
  cases h.wiring_old.symm.trans hw
  rintro ⟨-, rfl | rfl⟩
  · exact hequipment ha
  · exact hfork ha

theorem mem_edgeList_iff : e ∈ w'.edgeList ↔ e ∈ w.edgeList ∨ ∃ x ∈ b.switches, e = x.edge := by
  obtain ⟨hs, hs', ha⟩ := h.augmented
  have hlaid : ∀ x, x ∈ switchesAt (laid [b]) b.voltageLevel ↔ x ∈ b.switches := by
    intro x
    simp only [switchesAt, laid, List.mem_singleton, exists_eq_left, Set.mem_ofPred_eq]
    exact and_iff_left_of_imp LaidBay.voltageLevel_of_mem
  rw [ha.mem_edgeList_iff hs hs']
  simp only [hlaid]

theorem terminal_mem_iff {x : Attachment} :
    (a, x) ∈ terminalsAt (attachments {c}) b.voltageLevel ↔
      a = b.nodes.equipment ∧ x = ⟨c.id, .one⟩ := by
  obtain ⟨id, side⟩ := x
  simp only [terminalsAt, attachments, Set.mem_singleton_iff, exists_eq_left, Set.mem_ofPred_eq,
    h.terminals_eq, List.mem_singleton, Prod.mk.injEq, Attachment.mk.injEq, Terminal.atNode,
    Terminal.mk.injEq, true_and, Connection.node.injEq]
  grind

theorem terminal_new : w'.terminals[b.nodes.equipment]? = some ⟨c.id, .one⟩ :=
  (h.augmented.2.2.terminal_new _ _ (h.terminal_mem_iff.mpr ⟨rfl, rfl⟩)).1

theorem terminal_old (ha : a ≠ b.nodes.equipment) : w'.terminals[a]? = w.terminals[a]? :=
  h.augmented.2.2.terminal_old a fun _ hx => ha (h.terminal_mem_iff.mp hx).1

theorem terminal_of_placed (ha : a ∈ w.places) : w'.terminals[a]? = w.terminals[a]? :=
  h.terminal_old fun he => h.not_takes ha ⟨rfl, Or.inl he.symm⟩

theorem sectionIndex?_eq (x : String) : m.sectionIndex? x = n.sectionIndex? x := by
  rw [sectionIndex?, h.extended.busbarSections_eq, sectionIndex?]

theorem placedSections_eq (vl : String) : m.placedSections vl = n.placedSections vl := by
  rw [placedSections, busbarSectionsIn, h.extended.busbarSections_eq, placedSections,
    busbarSectionsIn]

theorem crosses_iff : m.Crosses w' i a ↔ n.Crosses w i a := by
  by_cases ha : a = b.nodes.equipment
  · subst ha
    have hnone : n.sectionIndex? c.id = none := by
      cases hb : n.busbarSections[c.id]? with
      | none => rw [sectionIndex?, hb, Option.bind_none]
      | some x => exact absurd hb (h.extended.fresh c rfl (.busbarSection x))
    have hfree : w.terminals[b.nodes.equipment]? = none := by
      have hnew := (h.augmented.2.2.terminal_new _ _ (h.terminal_mem_iff.mpr ⟨rfl, rfl⟩)).2
      exact ExtTreeMap.getElem?_eq_none hnew
    refine iff_of_true ((crosses_of_terminal h.terminal_new).mpr fun j hj => ?_)
      (crosses_of_none hfree)
    rw [h.sectionIndex?_eq, hnone] at hj
    cases hj
  · simp only [Crosses, h.terminal_old ha, h.sectionIndex?_eq]

/-- From a node that was there, the way leads on as before, or from a rail of the bay
into the bay. -/
theorem passage_cases (hpass : Passage w'.edgeList (m.Crosses w' i) y z) (hy : y ∈ w.places) :
    z ∈ w.places ∧ Passage w.edgeList (n.Crosses w i) y z ∨
      b.Takes b.voltageLevel z ∧ ∃ r ∈ b.rails, r.node = y := by
  obtain ⟨⟨e, he, hends⟩, hz⟩ := hpass
  rcases h.mem_edgeList_iff.mp he with hold | ⟨x, hx, rfl⟩
  · obtain ⟨k, hk⟩ := mem_values_iff.mp hold
    have hplaced := h.augmented.1.placed_of_touches hk (hends.touches_iff.mpr (Or.inr rfl))
    exact Or.inl ⟨hplaced, ⟨e, hold, hends⟩, h.crosses_iff.mp hz⟩
  · obtain ⟨htakes, hrail⟩ := LaidBay.ends_of_mem hx
    rcases hends with ⟨rfl, rfl⟩ | ⟨rfl, rfl⟩
    · exact absurd htakes (h.not_takes hy)
    · exact Or.inr ⟨htakes, hrail.resolve_left (h.not_takes hy)⟩

theorem passage_of_takes (hpass : Passage w'.edgeList (m.Crosses w' i) y z)
    (hy : b.Takes b.voltageLevel y) :
    b.Takes b.voltageLevel z ∨ ∃ r ∈ b.rails, r.node = z := by
  obtain ⟨⟨e, he, hends⟩, -⟩ := hpass
  rcases h.mem_edgeList_iff.mp he with hold | ⟨x, hx, rfl⟩
  · obtain ⟨k, hk⟩ := mem_values_iff.mp hold
    have hplaced := h.augmented.1.placed_of_touches hk (hends.touches_iff.mpr (Or.inl rfl))
    exact absurd hy (h.not_takes hplaced)
  · obtain ⟨htakes, hrail⟩ := LaidBay.ends_of_mem hx
    rcases hends with ⟨rfl, rfl⟩ | ⟨rfl, rfl⟩
    · exact hrail
    · exact Or.inl htakes

theorem reaches_mono (hreaches : Reaches w.edgeList (n.Crosses w i) y z) :
    Reaches w'.edgeList (m.Crosses w' i) y z :=
  Relation.ReflTransGen.mono (fun _ _ ⟨⟨e, he, hends⟩, hz⟩ =>
    ⟨⟨e, h.mem_edgeList_iff.mpr (Or.inl he), hends⟩, h.crosses_iff.mpr hz⟩) _ _ hreaches

theorem placed_mem (hx : (start, p) ∈ n.placedSections b.voltageLevel) :
    start.node ∈ w.places :=
  h.augmented.1.terminal_placed _ (mem_iff_exists_getElem?.mpr
    ⟨_, h.extended.base.getElem?_terminals_of_placed h.wiring_old hx⟩)

/-- From busbar sections of other section indices, no way leads into the bay. -/
theorem reaches_of_ne (hi : i ≠ s) (hx : (start, p) ∈ n.placedSections b.voltageLevel)
    (hp : p.sectionIndex = i) (hreaches : Reaches w'.edgeList (m.Crosses w' i) start.node a) :
    a ∈ w.places ∧ n.Crosses w i a ∧ Reaches w.edgeList (n.Crosses w i) start.node a := by
  have hn := h.extended.base
  induction hreaches with
  | refl =>
    exact ⟨h.placed_mem hx, (hn.crosses_placed_iff h.wiring_old hx).mpr hp, .refl⟩
  | @tail y z _ hpass ih =>
    obtain ⟨hplaced, hcrosses, hreaches⟩ := ih
    rcases h.passage_cases hpass hplaced with ⟨hz, hold⟩ | ⟨-, r, hr, rfl⟩
    · exact ⟨hz, hold.2, hreaches.tail hold⟩
    -- The rail has section index `s`, so paths of `i` do not come to it.
    · obtain ⟨u, q, hu, hq, rfl⟩ := h.placed r hr
      exact absurd ((hn.crosses_placed_iff h.wiring_old hu).mp hcrosses ▸ hq) hi

/-- From busbar sections of section index `s`, a way leads into the bay, or from one of them
to a node that was reached before. -/
theorem reaches_cases (hx : (start, p) ∈ n.placedSections b.voltageLevel)
    (hp : p.sectionIndex = s) (hreaches : Reaches w'.edgeList (m.Crosses w' s) start.node a) :
    b.Takes b.voltageLevel a ∨ a ∈ w.places ∧ ∃ u q, (u, q) ∈ n.placedSections b.voltageLevel ∧
      q.sectionIndex = s ∧ Reaches w.edgeList (n.Crosses w s) u.node a := by
  induction hreaches with
  | refl => exact Or.inr ⟨h.placed_mem hx, start, p, hx, hp, .refl⟩
  | @tail y z _ hpass ih =>
    rcases ih with htakes | ⟨hplaced, u, q, hu, hq, hreaches⟩
    · refine (h.passage_of_takes hpass htakes).imp_right ?_
      rintro ⟨r, hr, rfl⟩
      obtain ⟨u, q, hu, hq, rfl⟩ := h.placed r hr
      exact ⟨h.placed_mem hu, u, q, hu, hq, .refl⟩
    · rcases h.passage_cases hpass hplaced with ⟨hz, hold⟩ | ⟨htakes, -⟩
      · exact Or.inr ⟨hz, u, q, hu, hq, hreaches.tail hold⟩
      · exact Or.inl htakes

theorem reaches_equipment : ∃ u q, (u, q) ∈ n.placedSections b.voltageLevel ∧ q.sectionIndex = s ∧
    Reaches w'.edgeList (m.Crosses w' s) u.node b.nodes.equipment := by
  obtain ⟨r, hr⟩ := List.exists_mem_of_ne_nil _ h.rails_ne
  obtain ⟨u, q, hu, hq, rfl⟩ := h.placed r hr
  have hm : b.disconnector u.rail ∈ b.others.map (·.unnamed) := by
    rw [b.others_eq]
    exact List.mem_map_of_mem hr
  obtain ⟨x, hx, heq⟩ := List.mem_map.mp hm
  have hnode1 : x.node1 = b.nodes.fork := congrArg Switch.node1 heq
  have hnode2 : x.node2 = u.node := congrArg Switch.node2 heq
  have hfree : ∀ {a}, b.Takes b.voltageLevel a → m.Crosses w' s a := by
    intro a ha
    refine h.crosses_iff.mpr (crosses_of_none (ExtTreeMap.getElem?_eq_none fun hin => ?_))
    exact h.not_takes (h.augmented.1.terminal_placed a hin) ha
  have hfork : Passage w'.edgeList (m.Crosses w' s) u.node b.nodes.fork :=
    ⟨⟨x.edge, h.mem_edgeList_iff.mpr (Or.inr ⟨x, List.mem_cons_of_mem _ hx, rfl⟩),
      Or.inr ⟨hnode1, hnode2⟩⟩, hfree ⟨rfl, Or.inr rfl⟩⟩
  have hequipment : Passage w'.edgeList (m.Crosses w' s) b.nodes.fork b.nodes.equipment :=
    ⟨⟨b.first.edge, h.mem_edgeList_iff.mpr (Or.inr ⟨b.first, List.mem_cons_self, rfl⟩),
      Or.inr b.first_ends.2⟩, hfree ⟨rfl, Or.inl rfl⟩⟩
  exact ⟨u, q, hu, hq, .tail (.single hfork) hequipment⟩

theorem inSlice_iff_of_ne (hi : i ≠ s) :
    m.InSlice b.voltageLevel w' i x ↔ n.InSlice b.voltageLevel w i x := by
  simp only [InSlice, h.placedSections_eq]
  constructor
  · rintro ⟨u, q, hu, hq, a, t, hreaches, ht, rfl⟩
    obtain ⟨hplaced, -, hreaches⟩ := h.reaches_of_ne hi hu hq hreaches
    exact ⟨u, q, hu, hq, a, t, hreaches, h.terminal_of_placed hplaced ▸ ht, rfl⟩
  · rintro ⟨u, q, hu, hq, a, t, hreaches, ht, rfl⟩
    have hplaced := h.augmented.1.terminal_placed a (mem_iff_exists_getElem?.mpr ⟨t, ht⟩)
    exact ⟨u, q, hu, hq, a, t, h.reaches_mono hreaches,
      (h.terminal_of_placed hplaced).trans ht, rfl⟩

theorem inSlice_iff :
    m.InSlice b.voltageLevel w' s x ↔ x = c.id ∨ n.InSlice b.voltageLevel w s x := by
  simp only [InSlice, h.placedSections_eq]
  constructor
  · rintro ⟨u, q, hu, hq, a, t, hreaches, ht, rfl⟩
    rcases h.reaches_cases hu hq hreaches with ⟨-, rfl | rfl⟩ | ⟨hplaced, v, q', hv, hq', hold⟩
    · cases h.terminal_new.symm.trans ht
      exact Or.inl rfl
    · obtain ⟨_, hw, -, hfork⟩ := h.fits.wired
      cases h.wiring_old.symm.trans hw
      rw [h.terminal_old h.fits.distinct.symm] at ht
      exact absurd (h.augmented.1.terminal_placed _ (mem_iff_exists_getElem?.mpr ⟨t, ht⟩)) hfork
    · exact Or.inr ⟨v, q', hv, hq', a, t, hold, h.terminal_of_placed hplaced ▸ ht, rfl⟩
  · rintro (rfl | ⟨u, q, hu, hq, a, t, hreaches, ht, rfl⟩)
    · obtain ⟨u, q, hu, hq, hreaches⟩ := h.reaches_equipment
      exact ⟨u, q, hu, hq, _, _, hreaches, h.terminal_new, rfl⟩
    · have hplaced := h.augmented.1.terminal_placed a (mem_iff_exists_getElem?.mpr ⟨t, ht⟩)
      exact ⟨u, q, hu, hq, a, t, h.reaches_mono hreaches,
        (h.terminal_of_placed hplaced).trans ht, rfl⟩

theorem sortedOrders_eq {ids : List String} (hnew : c.id ∉ ids) (vl : String) :
    m.sortedOrders vl ids = n.sortedOrders vl ids := by
  have hfound : ∀ x ∈ ids, m.connectable? x = n.connectable? x := by
    intro x hx
    apply Option.ext
    intro d
    rw [h.extended.coherent.connectable?_eq_some_iff, h.extended.base.connectable?_eq_some_iff,
      h.extended.keeps_iff, Set.mem_singleton_iff]
    refine or_iff_left ?_
    rintro ⟨hid, rfl⟩
    exact hnew (hid ▸ hx)
  rw [sortedOrders, List.filterMap_congr hfound, sortedOrders]

theorem sortedOrders_cons {ids : List String} (hnew : c.id ∉ ids) (vl : String) :
    m.sortedOrders vl (c.id :: ids) =
      (c.ordersIn vl).foldr insertSorted (n.sortedOrders vl ids) := by
  have hfound : m.connectable? c.id = some c :=
    h.extended.coherent.connectable?_eq_some_iff.mpr (h.extended.keeps_new rfl)
  rw [← h.sortedOrders_eq hnew, sortedOrders, List.filterMap_cons_some hfound, List.flatMap_cons,
    sortOrders, List.foldr_append]
  rfl

/-- The orders of the injection come into the slice of its bay. -/
theorem exists_sliceOrders : ∃ orders,
    (n.sliceOrders b.voltageLevel)[s]? = some orders ∧
      m.sliceOrders b.voltageLevel = (n.sliceOrders b.voltageLevel).insert s
        ((c.ordersIn b.voltageLevel).foldr insertSorted orders) := by
  have hn := h.extended.base
  have hm := h.extended.coherent
  have hslice : ∀ i, m.HasSlice b.voltageLevel i ↔ n.HasSlice b.voltageLevel i := by
    simp only [HasSlice, h.placedSections_eq, implies_true]
  -- A slice of `n` holds connectables of `n`, so the injection is none of them.
  have hfresh : ∀ {i}, ¬n.InSlice b.voltageLevel w i c.id := by
    rintro i ⟨u, q, -, -, a, t, -, ht, hid⟩
    obtain ⟨d, hd, -⟩ := (hn.holdsAt_iff _ _ t).mp ⟨w, h.wiring_old, ht⟩
    exact h.extended.fresh c rfl d (hid ▸ hd)
  have hs : n.HasSlice b.voltageLevel s := by
    obtain ⟨u, q, hu, hq, -⟩ := h.reaches_equipment
    exact ⟨u, q, hu, hq⟩
  obtain ⟨ids, hnodup, hids⟩ := hn.exists_list_inSlice h.wiring_old s
  refine ⟨_, hn.getElem?_sliceOrders h.wiring_old hs hnodup hids, ?_⟩
  apply ExtTreeMap.ext_getElem?
  intro i
  rw [ExtTreeMap.getElem?_insert]
  split
  next hi =>
    obtain rfl := LawfulEqCmp.eq_of_compare hi
    have hnew : c.id ∉ ids := fun hin => hfresh ((hids _).mp hin)
    rw [← h.sortedOrders_cons hnew]
    refine hm.getElem?_sliceOrders h.wiring_new ((hslice s).mpr hs)
      (List.nodup_cons.mpr ⟨hnew, hnodup⟩) fun x => ?_
    rw [h.inSlice_iff, List.mem_cons, hids]
  next hi =>
    have hne : i ≠ s := fun he => hi (by simp [he])
    by_cases hin : n.HasSlice b.voltageLevel i
    · obtain ⟨others, hothers, hmem⟩ := hn.exists_list_inSlice h.wiring_old i
      have hnew : c.id ∉ others := fun hin => hfresh ((hmem _).mp hin)
      rw [hn.getElem?_sliceOrders h.wiring_old hin hothers hmem, ← h.sortedOrders_eq hnew]
      refine hm.getElem?_sliceOrders h.wiring_new ((hslice i).mpr hin) hothers fun x => ?_
      rw [h.inSlice_iff_of_ne hne, hmem]
    · rw [getElem?_sliceOrders_of_not_hasSlice h.wiring_old hin]
      exact getElem?_sliceOrders_of_not_hasSlice h.wiring_new (mt (hslice i).mp hin)

end Hung

/-- The second network has a new connectable. Slice `i` of the voltage level has its order
besides, if it has a feeder position. -/
structure FeedsSlice (n m : Network) (vl : String) (i : Int32) (order : Option FeederOrder)
    (c : Connectable) : Prop where
  new : n.connectable? c.id = none
  found : m.connectable? c.id = some c
  unplaced : c.position = none → m.sliceOrders vl = n.sliceOrders vl
  placed : c.position.isSome → ∃ o orders, order = some o ∧ c.ordersIn vl = [o] ∧
    (n.sliceOrders vl)[i]? = some orders ∧
    m.sliceOrders vl = (n.sliceOrders vl).insert i (insertSorted o orders)

end Network

namespace FeederBays

variable {d : FeederBays} {bay : FeederBay} {bays : List LaidBay} {t : BusbarSection}

/-- An injection at a placed section hangs on its bay. -/
theorem Furnishes.hung (h : d.Furnishes n m c bays) (hroom : d.HasRoom n)
    (hsides : d.draft.sides = [.one]) (hbays : d.bays = [bay])
    (ht : n.busbarSections[bay.target]? = some t) (hp : t.position = some p) :
    ∃ b w w', b.voltageLevel = t.voltageLevel ∧ Hung n m w w' c b p.sectionIndex := by
  have hn := h.extended.base
  have hequipped := h.equipped
  rw [hsides, hbays, List.zip_cons_cons, List.zip_nil_right] at hequipped
  cases hequipped with
  | bus hbus => exact absurd hbus (hn.not_hasBus ht)
  | @busbarSection _ _ u b _ _ htarget hplan hterminal hrest =>
    cases hrest
    cases ht.symm.trans htarget
    have hvl : b.voltageLevel = t.voltageLevel := congrArg BayPlan.voltageLevel hplan
    have hrails : b.rails = n.bayRails t.voltageLevel t.rail := congrArg BayPlan.rails hplan
    have hfits := (h.serves hroom).fits b (List.mem_singleton_self b)
    obtain ⟨w, hw, -⟩ := hfits.wired
    obtain ⟨w', hw', -⟩ := h.extended.toWired.of_wiring (Set.notMem_empty _) hw
    have hid : t.id = bay.target := hn.connectable_id _ (.busbarSection t) ht
    have halong : ∀ r, r ∈ b.rails ↔ ∃ x, n.Alongside t x ∧ x.rail = r := fun r => by
      rw [hrails, hn.mem_bayRails_iff ht]
    simp only [Alongside, hp] at halong
    refine ⟨b, w, w', hvl, h.extended, hfits, hw, hw', ?_, fun r hr => ?_, ?_⟩
    · rw [hvl]
      exact c.terminals_eq_singleton (h.sides_eq.trans hsides) hterminal
    · obtain ⟨x, ⟨hx, hlevel, q, hq, hindex⟩, hrail⟩ := (halong r).mp hr
      exact ⟨x, q, hn.mem_placedSections_iff.mpr ⟨hx, hlevel.trans hvl.symm, hq⟩, hindex, hrail⟩
    · exact List.ne_nil_of_mem ((halong t.rail).mpr ⟨t, ⟨hid ▸ ht, rfl, p, hp, rfl⟩, rfl⟩)

/-- The orders of the injection are that of its bay, where it ranks. -/
theorem Furnishes.ordersIn_eq (h : d.Furnishes n m c bays) (hsides : d.draft.sides = [.one])
    (hbays : d.bays = [bay]) (ht : n.busbarSections[bay.target]? = some t)
    (hc : c.position.isSome) : ∃ o, n.Ranks bay t o ∧ c.ordersIn t.voltageLevel = [o] := by
  obtain ⟨q, hposition⟩ := Option.isSome_iff_exists.mp hc
  obtain ⟨side, f, hf⟩ := h.feeder_of_position hc
  obtain ⟨bay', t', o, hin, hranks, hfeeder⟩ := (h.feeder_iff side f).mp hf
  rw [hsides, hbays, List.zip_cons_cons, List.zip_nil_right, List.mem_singleton] at hin
  cases hin
  cases ht.symm.trans hranks.target
  obtain ⟨node, hnode⟩ := h.equipped.terminal_of_mem h.extended.base
    (by rw [hsides, hbays]; exact List.mem_cons_self) ht
  have hterminals := c.terminals_eq_singleton (h.sides_eq.trans hsides) hnode
  have hq : q.feeder .one = some f := by
    rwa [Connectable.feeder?, hposition, Option.bind_some] at hf
  have horder : f.order = some o := hfeeder ▸ hranks.order
  refine ⟨o, hranks, ?_⟩
  simp [Connectable.ordersIn, Connectable.feedersIn, hposition, hterminals, hq, horder,
    Terminal.atNode]

theorem Furnishes.feedsSlice (h : d.Furnishes n m c bays) (hroom : d.HasRoom n)
    (hsides : d.draft.sides = [.one]) (hbays : d.bays = [bay])
    (ht : n.busbarSections[bay.target]? = some t) (hp : t.position = some p) :
    n.FeedsSlice m t.voltageLevel p.sectionIndex bay.order c ∧
      (SlicesInOrder (n.sliceOrders t.voltageLevel) →
        SlicesInOrder (m.sliceOrders t.voltageLevel)) := by
  obtain ⟨b, w, w', hvl, hhung⟩ := h.hung hroom hsides hbays ht hp
  obtain ⟨orders, hold, hnew⟩ := hhung.exists_sliceOrders
  rw [hvl] at hold hnew
  have hunplaced : c.position = none →
      m.sliceOrders t.voltageLevel = n.sliceOrders t.voltageLevel := by
    intro hc
    rw [hnew, c.ordersIn_eq_nil hc, List.foldr_nil]
    exact insert_of_getElem? hold
  have hplaced : ∀ {o}, c.ordersIn t.voltageLevel = [o] → m.sliceOrders t.voltageLevel =
      (n.sliceOrders t.voltageLevel).insert p.sectionIndex (insertSorted o orders) := by
    intro o ho
    rw [hnew, ho, List.foldr_cons, List.foldr_nil]
  refine ⟨⟨h.extended.connectable?_new rfl,
    h.extended.coherent.connectable?_eq_some_iff.mpr (h.extended.keeps_new rfl), hunplaced,
    fun hc => ?_⟩, fun hordered => ?_⟩
  · obtain ⟨o, hranks, ho⟩ := h.ordersIn_eq hsides hbays ht hc
    exact ⟨o, orders, hranks.order, ho, hold, hplaced ho⟩
  · cases hc : c.position with
    | none => exact hunplaced hc ▸ hordered
    | some q =>
      obtain ⟨o, hranks, ho⟩ := h.ordersIn_eq hsides hbays ht (hc ▸ rfl)
      rw [hplaced ho]
      exact hranks.slicesInOrder hp hold hordered

end FeederBays

namespace Modification

/-- A load at a busbar section. -/
def loadBay (id target : String) (order : FeederOrder) : FeederBays where
  draft := .injection { owner := 0, id }
  bays := [{ target, order := some order }]
  force := false

/-- Two busbar sections of two section indices, with a load each. -/
def twoSlices : List Operation :=
  [.change (.addVoltageLevel { id := "V" }),
    .change (.addBusbarSection
      { voltageLevel := "V", id := "A", node := 0, position := some ⟨1, 1⟩ }),
    .change (.addBusbarSection
      { voltageLevel := "V", id := "B", node := 1, position := some ⟨1, 2⟩ }),
    .modification (.feederBays (loadBay "L1" "A" 10)) .standard true,
    .modification (.feederBays (loadBay "L2" "B" 20)) .standard true]

/-- Two busbar sections of two section indices, where the numbers of the nodes end. -/
def crowdedSlices : List Operation :=
  [.change (.addVoltageLevel { id := "V" }),
    .change (.addBusbarSection
      { voltageLevel := "V", id := "A", node := 0, position := some ⟨1, 1⟩ }),
    .change (.addBusbarSection
      { voltageLevel := "V", id := "B", node := 5, position := some ⟨1, 2⟩ }),
    .change (.addConnectable (.injection
      { owner := 0, id := "LD", terminal := some (.atNode "V" 4294967294) })),
    .change (.setFeederPosition "LD" (some { feeder1 := some ⟨none, some 100, .top⟩ }))]

example :
    (((empty "N" 0).after twoSlices).sliceOrders "V").toList = [(1, [10]), (2, [20])] ∧
      (((feederBays (loadBay "L3" "A" 15)).apply ((empty "N" 0).after twoSlices) .standard
        true).network.sliceOrders "V").toList = [(1, [10, 15]), (2, [20])] := by
  decide +kernel

end Modification

end Switchyard
