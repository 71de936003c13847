import Switchyard.Proofs.Interlinking
import Switchyard.Proofs.SectionIndices

namespace Switchyard

open Std Network Run

variable {f : Fold} {n m k : Network} {s t : Session} {naming : NamingStrategy}
  {vl base id : String}

/-- The sums of the least indices and the counts are indices themselves. -/
def Grid.HasIndices (g : Grid) : Prop :=
  g.lowBusbar.toInt + g.busbarCount.toInt ≤ Int32.maxValue.toInt ∧
    g.lowSection.toInt + g.sectionCount.toInt ≤ Int32.maxValue.toInt

instance (g : Grid) : Decidable g.HasIndices :=
  inferInstanceAs (Decidable (_ ∧ _))

namespace Grid

variable {g : Grid} {p : BusbarPosition}

theorem covers_iff :
    g.covers p = true ↔
      (g.lowBusbar ≤ p.busbarIndex ∧ p.busbarIndex < g.lowBusbar + g.busbarCount) ∧
      g.lowSection ≤ p.sectionIndex ∧ p.sectionIndex < g.lowSection + g.sectionCount := by
  simp only [covers, Bool.and_eq_true, decide_eq_true_eq, and_assoc]

theorem mem_positions_iff : p ∈ g.positions ↔ g.covers p = true := by
  rw [covers_iff]
  simp only [positions, List.mem_flatMap, List.mem_map, sections, busbars, mem_indicesBetween_iff]
  constructor
  · rintro ⟨i, hi, b, hb, rfl⟩
    exact ⟨hb, hi⟩
  · rintro ⟨hb, hi⟩
    exact ⟨p.sectionIndex, hi, p.busbarIndex, hb, rfl⟩

theorem nodup_positions (g : Grid) : g.positions.Nodup := by
  refine List.nodup_flatMap.mpr ⟨fun i _ => ?_, ?_⟩
  · exact (nodup_indicesBetween _ _).map fun b b' hb => congrArg BusbarPosition.busbarIndex hb
  · refine (nodup_indicesBetween _ _).imp fun {i j} hij p hi hj => ?_
    obtain ⟨b, -, rfl⟩ := List.mem_map.mp hi
    obtain ⟨b', -, he⟩ := List.mem_map.mp hj
    exact hij (congrArg BusbarPosition.sectionIndex he).symm

theorem toInt_after (hp : g.covers p = true) :
    (p.sectionIndex + 1).toInt = p.sectionIndex.toInt + 1 :=
  toInt_add_one (ne_maxValue_of_lt (covers_iff.mp hp).2.2)

/-- There is a busbar and a section at least, and the index after the last one of each is no
less than it should be. -/
structure Sized (g : Grid) : Prop where
  busbars : 0 < g.busbarCount
  sections : 0 < g.sectionCount
  toInt_highBusbar :
    (g.lowBusbar + g.busbarCount).toInt = g.lowBusbar.toInt + g.busbarCount.toInt
  toInt_highSection :
    (g.lowSection + g.sectionCount).toInt = g.lowSection.toInt + g.sectionCount.toInt

theorem sized_of_checkCounts (h : g.checkCounts = .ok ()) (hindices : g.HasIndices) :
    g.Sized := by
  obtain ⟨hbusbars, hsections⟩ : 0 < g.busbarCount ∧ 0 < g.sectionCount := by
    unfold checkCounts at h
    dsimp only at h
    split at h
    · cases h
    split at h
    · cases h
    split at h
    · cases h
    split at h
    · cases h
    grind
  exact ⟨hbusbars, hsections, toInt_add_of_pos hbusbars hindices.1,
    toInt_add_of_pos hsections hindices.2⟩

theorem Sized.length_busbars (h : g.Sized) : (g.busbars.length : Int) = g.busbarCount.toInt := by
  have hpos : 0 < g.busbarCount.toInt := Int32.lt_iff_toInt_lt.mp h.busbars
  rw [Grid.busbars, length_indicesBetween, h.toInt_highBusbar]
  omega

theorem Sized.length_sections (h : g.Sized) :
    (g.sections.length : Int) = g.sectionCount.toInt := by
  have hpos : 0 < g.sectionCount.toInt := Int32.lt_iff_toInt_lt.mp h.sections
  rw [Grid.sections, length_indicesBetween, h.toInt_highSection]
  omega

theorem Sized.length_positions (h : g.Sized) :
    (g.positions.length : Int) = g.busbarCount.toInt * g.sectionCount.toInt := by
  rw [← h.length_busbars, ← h.length_sections]
  simp [positions, List.length_flatMap, Int.mul_comm]

theorem checkSwitchKinds_eq_ok (h : g.checkSwitchKinds = .ok ()) :
    g.switchKinds.length = (g.sectionCount - 1).toNatClampNeg := by
  unfold checkSwitchKinds at h
  dsimp only at h
  split at h
  · cases h
  next hlength => exact Decidable.not_not.mp hlength

/-- There is a link for each position but those of the last section. -/
theorem Sized.exists_link (h : g.Sized) (hkinds : g.checkSwitchKinds = .ok ())
    (hp : g.covers p = true)
    (hafter : g.covers { p with sectionIndex := p.sectionIndex + 1 } = true) :
    ∃ kind, (p, kind) ∈ g.links := by
  obtain ⟨hbusbar, hlow, -⟩ := covers_iff.mp hp
  have hhigh : p.sectionIndex + 1 < g.lowSection + g.sectionCount := (covers_iff.mp hafter).2.2
  have hlow := Int32.le_iff_toInt_le.mp hlow
  have hhigh := Int32.lt_iff_toInt_lt.mp hhigh
  rw [toInt_after hp, h.toInt_highSection] at hhigh
  have hlength := checkSwitchKinds_eq_ok hkinds
  rw [Int32.toNatClampNeg, toInt_sub_one (ne_minValue_of_lt h.sections)] at hlength
  let i := (p.sectionIndex.toInt - g.lowSection.toInt).toNat
  have hi : i < g.switchKinds.length := by omega
  have hsection : i < g.sections.length := by
    have hcount := h.length_sections
    omega
  have hat : g.sections[i] = p.sectionIndex := by
    have hlast := p.sectionIndex.toInt_lt
    have hmax : Int32.maxValue.toInt = 2147483647 := rfl
    simp only [Grid.sections, indicesBetween, List.getElem_map, List.getElem_range]
    rw [← Int32.toInt_inj, toInt_add_ofNat (by omega)]
    omega
  refine ⟨g.switchKinds[i], List.mem_flatMap.mpr ⟨(p.sectionIndex, g.switchKinds[i]), ?_, ?_⟩⟩
  · rw [← hat]
    exact List.mem_iff_getElem.mpr ⟨i, by simp [hi, hsection], by simp⟩
  · exact List.mem_map.mpr ⟨p.busbarIndex, mem_indicesBetween_iff.mpr hbusbar, rfl⟩

end Grid

theorem BusDraft.id_of_create {d : BusDraft} (hown : d.unique = false)
    (h : d.create n = .ok id m) : id = d.id := by
  simp only [create, bind_eq_ok, Edit.busLayout_eq_ok, pure_eq_ok] at h
  obtain ⟨l, _, -, given, _, hclaim, -, -, -, -, -, -, rfl, -⟩ := h
  obtain ⟨-, hsame, -⟩ := Edit.claimId_eq_ok hclaim
  exact hsame hown

theorem BusbarSectionDraft.id_of_create {d : BusbarSectionDraft} (hown : d.unique = false)
    (h : d.create n = .ok id m) : id = d.id := by
  rw [create_eq] at h
  have hentered := fun hmake => Edit.enter_eq_ok hmake h
  obtain ⟨-, hsame, -⟩ := hentered rfl
  exact hsame hown

theorem lookup_map_eq_some {α β : Type} [DecidableEq α] {f : α → β} {l : List α} {a : α} {b : β} :
    (l.map fun x => (x, f x)).lookup a = some b ↔ a ∈ l ∧ b = f a := by
  constructor
  · intro h
    obtain ⟨x, hx, he⟩ := List.mem_map.mp (mem_of_lookup h)
    cases he
    exact ⟨hx, rfl⟩
  · rintro ⟨ha, rfl⟩
    exact List.lookup_graph f ha

namespace Grid

variable {g : Grid} {positions : List BusbarPosition}

/-- The id of the bus or busbar section for a position. -/
def idAt (naming : NamingStrategy) (base : String) (p : BusbarPosition) : String :=
  naming.busbar base p.busbarIndex p.sectionIndex

theorem createBuses_eq_ok {buses : List (BusbarPosition × String)}
    (h : createBuses naming vl base positions s = .ok buses t) :
    buses = positions.map (fun p => (p, idAt naming base p)) ∧
      Enrols ⟨.bus, some vl⟩ (positions.map (idAt naming base)) s.network t.network := by
  induction positions generalizing s t buses with
  | nil =>
    obtain ⟨rfl, rfl⟩ := pure_eq_ok.mp h
    exact ⟨rfl, .nil _⟩
  | cons p rest ih =>
    simp only [createBuses, bind_eq_ok, edit_eq_ok, emit_eq_ok, pure_eq_ok] at h
    obtain ⟨id, _, ⟨k, hcreate, rfl⟩, _, _, rfl, more, u, hmore, rfl, rfl⟩ := h
    obtain rfl := BusDraft.id_of_create rfl hcreate
    obtain ⟨l, -, hid, rfl⟩ := BusDraft.create_eq_ok hcreate
    obtain ⟨rfl, henrols⟩ := ih hmore
    exact ⟨rfl, henrols.cons hid rfl⟩

/-- The busbar section on a node. -/
def sectionAt (naming : NamingStrategy) (vl base : String) (p : BusbarPosition) (node : Node) :
    BusbarSection where
  id := idAt naming base p
  name := none
  voltageLevel := vl
  node
  position := some p

theorem createSections_eq_ok (hs : s.network.Coherent False) {node : Node}
    {created : List (BusbarPosition × Node)}
    (h : createSections naming vl base node positions s = .ok created t) :
    created = numbered node positions ∧
      Enrols ⟨.busbarSection, some vl⟩ (positions.map (idAt naming base)) s.network t.network ∧
      SectionInsertion.Added s.network.busbarSections t.network.busbarSections
        ((numbered node positions).map fun x => sectionAt naming vl base x.1 x.2) := by
  induction positions generalizing s t node created with
  | nil =>
    obtain ⟨rfl, rfl⟩ := pure_eq_ok.mp h
    exact ⟨rfl, .nil _, .nil _⟩
  | cons p rest ih =>
    simp only [createSections, bind_eq_ok, edit_eq_ok, emit_eq_ok, pure_eq_ok] at h
    obtain ⟨id, _, ⟨k, hcreate, rfl⟩, _, _, rfl, more, u, hmore, rfl, rfl⟩ := h
    obtain rfl := BusbarSectionDraft.id_of_create rfl hcreate
    let c : Change := .addBusbarSection
      { voltageLevel := vl, id := idAt naming base p, node, position := some p }
    have hcoherent : k.Coherent False :=
      c.coherent_of_ok rfl hs (map_eq_ok.mpr ⟨_, hcreate, rfl⟩)
    obtain ⟨hid, w, w', -, -, rfl⟩ := BusbarSectionDraft.create_eq_ok hcreate
    obtain ⟨rfl, henrols, hadded⟩ := ih hcoherent hmore
    refine ⟨rfl, henrols.cons hid rfl, ?_⟩
    rw [numbered, List.map_cons]
    refine .cons (fun hin => ?_) hadded
    obtain ⟨b, hb⟩ := mem_iff_exists_getElem?.mp hin
    exact hs.stores_of_index hid _ (.connectable (c := .busbarSection b) hb)

/-- Creating sections closes nothing, so the wiring grows under every fold. -/
theorem grown_createSections (hs : s.network.Coherent False) {w : Wiring}
    (hw : s.network.inside? vl = some (.nodeBreaker w)) {node : Node}
    {created : List (BusbarPosition × Node)}
    (h : createSections naming vl base node positions s = .ok created t) :
    t.network.Coherent False ∧ ∃ w', t.network.inside? vl = some (.nodeBreaker w') ∧
      ∀ fold : Node → Node, w.Grown fold w' := by
  have hmade : ∀ fold : Node → Node, t.network.Coherent False ∧ ∃ w',
      t.network.inside? vl = some (.nodeBreaker w') ∧ w.Grown fold w' := by
    intro fold
    have hmade : Makes (Change.Extends ⟨fun _ => fold, fun _ b => b⟩)
        (createSections naming vl base node positions) s :=
      makes_createSections fun _ _ _ => trivial
    obtain ⟨ht, hgrown⟩ := hmade.grown hs h
    exact ⟨ht, hgrown.wiring hw⟩
  obtain ⟨ht, w', hw', -⟩ := hmade fun a => a
  refine ⟨ht, w', hw', fun fold => ?_⟩
  obtain ⟨-, u, hu, hgrown⟩ := hmade fold
  cases hw'.symm.trans hu
  exact hgrown

/-- A section link joins its ends. It folds back to them with the nodes it goes over. -/
theorem grown_createSectionLink (hs : s.network.Coherent False) {w : Wiring}
    (hw : s.network.inside? vl = some (.nodeBreaker w)) {fold : Node → Node} {a b : Node}
    (hends : fold a = fold b) {kind : SwitchKind} (hroom : s.network.Room vl kind.linkNodes)
    {fictitious : Bool} (h : createSectionLink naming vl base kind a b fictitious s = .ok () t) :
    t.network.Coherent False ∧ s.network.Interlinked t.network ∧
      ∃ w' next, t.network.inside? vl = some (.nodeBreaker w') ∧
        (∀ x ∈ w.places, next x = fold x) ∧ w.Grown next w' := by
  let next : Node → Node := fun x => if x ∈ w.places then fold x else fold a
  have hnew : ∀ x, s.network.Unplaced vl x → next x = fold a := fun x hx => if_neg (hx w hw)
  have ha : next a = fold a := ite_eq_left_iff.mpr fun _ => rfl
  have hb : next b = fold a := by
    simp only [next]
    split
    · exact hends.symm
    · rfl
  have hmade : Makes (Change.Switches ⟨fun _ => next, fun _ b => b⟩)
      (createSectionLink naming vl base kind a b fictitious) s := by
    refine switches_createSectionLink (ha.trans hb.symm) fun hkind u hu => ?_
    subst hkind
    have hroom : s.network.Room vl 2 := hroom
    exact ⟨(hnew _ (hroom.unplaced_nextNode hu)).trans ha.symm,
      (hnew _ (hroom.unplaced (i := 1) Nat.one_lt_two hu)).trans ha.symm⟩
  obtain ⟨hcoherent, hinterlinked, hgrown⟩ := hmade.developed hs h
  obtain ⟨w', hw', hgrown⟩ := hgrown.wiring hw
  exact ⟨hcoherent, hinterlinked, w', next, hw', fun x hx => if_pos hx, hgrown⟩

theorem linkSections_cons_eq_ok {created : List (BusbarPosition × Node)} {p : BusbarPosition}
    {kind : SwitchKind} {rest : List (BusbarPosition × SwitchKind)}
    (h : linkSections naming vl base created ((p, kind) :: rest) s = .ok () t) :
    (∃ a b id u, created.lookup p = some a ∧
        created.lookup { p with sectionIndex := p.sectionIndex + 1 } = some b ∧
        createSectionLink naming vl id kind a b false s = .ok () u ∧
        linkSections naming vl base created rest u = .ok () t) ∨
      (∀ a b, created.lookup p = some a →
        created.lookup { p with sectionIndex := p.sectionIndex + 1 } ≠ some b) ∧
        linkSections naming vl base created rest s = .ok () t := by
  rw [linkSections] at h
  dsimp only at h
  cases ha : created.lookup p with
  | none =>
    rw [ha] at h
    exact Or.inr ⟨by simp, h⟩
  | some a =>
    cases hb : created.lookup { p with sectionIndex := p.sectionIndex + 1 } with
    | none =>
      rw [ha, hb] at h
      exact Or.inr ⟨by simp, h⟩
    | some b =>
      rw [ha, hb] at h
      obtain ⟨_, u, hlink, hrest⟩ := bind_eq_ok.mp h
      exact Or.inl ⟨a, b, _, u, rfl, rfl, hlink, hrest⟩

theorem linkBuses_cons_eq_ok {buses : List (BusbarPosition × String)} {p : BusbarPosition}
    {rest : List BusbarPosition}
    (h : linkBuses naming vl base buses (p :: rest) s = .ok () t) :
    (∃ a b id u, buses.lookup { p with sectionIndex := p.sectionIndex - 1 } = some a ∧
        buses.lookup p = some b ∧ createBusSwitch vl id a b s = .ok () u ∧
        linkBuses naming vl base buses rest u = .ok () t) ∨
      (∀ a b, buses.lookup { p with sectionIndex := p.sectionIndex - 1 } = some a →
        buses.lookup p ≠ some b) ∧ linkBuses naming vl base buses rest s = .ok () t := by
  rw [linkBuses] at h
  dsimp only at h
  cases ha : buses.lookup { p with sectionIndex := p.sectionIndex - 1 } with
  | none =>
    rw [ha] at h
    exact Or.inr ⟨by simp, h⟩
  | some a =>
    cases hb : buses.lookup p with
    | none =>
      rw [ha, hb] at h
      exact Or.inr ⟨by simp, h⟩
    | some b =>
      rw [ha, hb] at h
      obtain ⟨_, u, hlink, hrest⟩ := bind_eq_ok.mp h
      exact Or.inl ⟨a, b, _, u, rfl, rfl, hlink, hrest⟩

/-- The links join what they are between. They fold back to it if what they are between
folds back to one node. -/
theorem linkSections_eq_ok (hs : s.network.Coherent False) {w : Wiring}
    (hw : s.network.inside? vl = some (.nodeBreaker w)) {created : List (BusbarPosition × Node)}
    (hcreated : ∀ p a, created.lookup p = some a → a ∈ w.places) {fold : Node → Node}
    (hfold : ∀ p a b, created.lookup p = some a →
      created.lookup { p with sectionIndex := p.sectionIndex + 1 } = some b → fold a = fold b)
    {links : List (BusbarPosition × SwitchKind)} (hroom : s.network.Room vl (linkNodes links))
    (h : linkSections naming vl base created links s = .ok () t) :
    t.network.Coherent False ∧ s.network.Interlinked t.network ∧
      (∃ w' next, t.network.inside? vl = some (.nodeBreaker w') ∧
        (∀ x ∈ w.places, next x = fold x) ∧ w.Grown next w') ∧
      ∀ x ∈ links, ∀ a b, created.lookup x.1 = some a →
        created.lookup { x.1 with sectionIndex := x.1.sectionIndex + 1 } = some b →
        t.network.SwitchJoins vl a b := by
  induction links generalizing s w fold with
  | nil =>
    obtain ⟨-, rfl⟩ := pure_eq_ok.mp h
    exact ⟨hs, .refl _, ⟨w, fold, hw, fun _ _ => rfl, .refl w⟩, by simp⟩
  | cons link rest ih =>
    obtain ⟨p, kind⟩ := link
    have hcount : linkNodes ((p, kind) :: rest) = linkNodes rest + kind.linkNodes :=
      Nat.add_comm _ _
    rw [hcount] at hroom
    have hless := hroom.mono (Nat.le_add_right _ _)
    rcases linkSections_cons_eq_ok h with ⟨a, b, id, u, ha, hb, hlink, hrest⟩ | ⟨hnone, hrest⟩
    · obtain ⟨hu, hsu, w₁, next₁, hw₁, hagree₁, hgrown₁⟩ :=
        grown_createSectionLink hs hw (hfold p a b ha hb) (hroom.mono (Nat.le_add_left _ _)) hlink
      obtain ⟨-, hroom₁⟩ := room_createSectionLink hs hroom
        ((hless w hw).lt_of_placed (hcreated p a ha))
        ((hless w hw).lt_of_placed (hcreated _ b hb)) hlink
      have hjoined := switchJoins_createSectionLink hs hlink
      have hplaced : ∀ q c, created.lookup q = some c → c ∈ w₁.places := fun q c hc =>
        hgrown₁.places c (hcreated q c hc)
      have hfold₁ : ∀ q c d, created.lookup q = some c →
          created.lookup { q with sectionIndex := q.sectionIndex + 1 } = some d →
          next₁ c = next₁ d := by
        intro q c d hc hd
        rw [hagree₁ c (hcreated _ c hc), hagree₁ d (hcreated _ d hd)]
        exact hfold q c d hc hd
      obtain ⟨ht, hut, ⟨w', next, hw', hagree, hgrown⟩, hlinks⟩ :=
        ih hu hw₁ hplaced hfold₁ hroom₁ hrest
      have hsound : w₁.Sound := hu.sound vl _ hw₁
      refine ⟨ht, hsu.trans hut, ⟨w', next, hw', fun x hx => ?_, ?_⟩,
        List.forall_mem_cons.mpr ⟨fun c d hc hd => ?_, hlinks⟩⟩
      · exact (hagree x (hgrown₁.places x hx)).trans (hagree₁ x hx)
      · exact hgrown₁.trans_of_agree hsound hagree hgrown
      · cases ha.symm.trans hc
        cases hb.symm.trans hd
        obtain ⟨v, hv, hjoined⟩ := hjoined
        cases hw₁.symm.trans hv
        exact ⟨w', hw', hgrown.switchJoins hjoined⟩
    · obtain ⟨ht, hst, hgrown, hlinks⟩ := ih hs hw hcreated hfold hless hrest
      exact ⟨ht, hst, hgrown, List.forall_mem_cons.mpr
        ⟨fun c d hc hd => absurd hd (hnone c d hc), hlinks⟩⟩

theorem linkBuses_eq_ok (hs : s.network.Coherent False) {buses : List (BusbarPosition × String)}
    (h : linkBuses naming vl base buses positions s = .ok () t) :
    ∀ p ∈ positions, ∀ a b, buses.lookup { p with sectionIndex := p.sectionIndex - 1 } = some a →
      buses.lookup p = some b → t.network.BusJoins vl a b := by
  let f : Fold := ⟨fun _ _ => 0, fun _ _ => ""⟩
  induction positions generalizing s with
  | nil => simp
  | cons p rest ih =>
    rcases linkBuses_cons_eq_ok h with ⟨a, b, id, u, ha, hb, hlink, hrest⟩ | ⟨hnone, hrest⟩
    · have hmade : Makes (Change.Switches f) (createBusSwitch vl id a b) s :=
        makes_createBusSwitch rfl
      have hu := (hmade.developed hs hlink).1
      have hgrown : u.network.Grown f t.network :=
        ((makes_linkBuses (fun _ _ _ _ _ => rfl) rest).developed hu hrest).2.2
      refine List.forall_mem_cons.mpr ⟨fun c d hc hd => ?_, ih hu hrest⟩
      cases ha.symm.trans hc
      cases hb.symm.trans hd
      exact hgrown.busJoins (busJoins_createBusSwitch hlink)
    · exact List.forall_mem_cons.mpr
        ⟨fun c d hc hd => absurd hd (hnone c d hc), ih hs hrest⟩

theorem developed_of_connected {existing : List (BusbarSection × BusbarPosition)}
    {created : List (BusbarPosition × Node)} {sections : List Int32} (hs : s.network.Coherent False)
    (h : s = t ∨ connectSections naming vl base existing created sections s = .ok () t) :
    t.network.Coherent False ∧ s.network.Interlinked t.network ∧ s.network.Grown f t.network := by
  rcases h with rfl | h
  · exact ⟨hs, .refl _, .refl _⟩
  · exact (makes_connectSections sections).developed hs h

/-- On nodes, the sections come on the nodes from the first one not in use on, then the
links between them, and then the switches that connect them. -/
theorem stepsOnNodes_eq_ok {g : Grid} {switchBase : String}
    (h : g.stepsOnNodes naming base switchBase s = .ok () t) :
    ∃ w created u v, s.network.inside? g.voltageLevel = some (.nodeBreaker w) ∧
      (∀ x ∈ s.network.placedSections g.voltageLevel, g.covers x.2 = false) ∧
      g.checkSwitchKinds = .ok () ∧
      createSections naming g.voltageLevel base w.nextNode g.positions s = .ok created u ∧
      linkSections naming g.voltageLevel switchBase created g.links u = .ok () v ∧
      (v = t ∨ connectSections naming g.voltageLevel switchBase
        (s.network.placedSections g.voltageLevel) created g.sections v = .ok () t) := by
  simp only [stepsOnNodes, bind_eq_ok, network_eq_ok] at h
  obtain ⟨_, _, ⟨rfl, rfl⟩, h⟩ := h
  split at h
  · simp only [bind_eq_ok, refuse_eq_ok, false_and, exists_false] at h
  next hfree =>
    cases hkinds : g.checkSwitchKinds with
    | error fault =>
      rw [hkinds] at h
      exact (refuse_eq_ok.mp h).elim
    | ok _ =>
      simp only [hkinds, bind_eq_ok, nextNode_eq_ok] at h
      obtain ⟨_, _, ⟨w, hw, rfl, rfl⟩, created, u, hcreated, _, v, hlinks, h⟩ := h
      refine ⟨w, created, u, v, hw, by simpa using hfree, rfl, hcreated, hlinks, ?_⟩
      split at h
      · exact Or.inr h
      · exact Or.inl (pure_eq_ok.mp h).2

theorem stepsOnBuses_eq_ok {g : Grid} {switchBase : String}
    (h : g.stepsOnBuses naming base switchBase s = .ok () t) :
    ∃ buses u, createBuses naming g.voltageLevel base g.positions s = .ok buses u ∧
      linkBuses naming g.voltageLevel switchBase buses
        (g.positions.filter (·.sectionIndex != g.lowSection)) u = .ok () t :=
  bind_eq_ok.mp h

/-- The counts are checked first. Then the steps are those for the inside of the voltage
level. -/
theorem steps_eq_ok {g : Grid} (h : g.steps naming s = .ok () t) :
    g.checkCounts = .ok () ∧ ∃ topology u, s.network.inside? g.voltageLevel = some topology ∧
      t.network = u.network ∧
      (match topology with
        | .nodeBreaker _ => g.stepsOnNodes naming (g.base.getD g.voltageLevel)
            (g.switchBase.getD g.voltageLevel) s = .ok () u
        | .busBreaker _ => g.stepsOnBuses naming (g.base.getD g.voltageLevel)
            (g.switchBase.getD g.voltageLevel) s = .ok () u) := by
  unfold steps at h
  cases hcounts : g.checkCounts with
  | error fault =>
    rw [hcounts] at h
    exact (refuse_eq_ok.mp h).elim
  | ok _ =>
    simp only [hcounts, bind_eq_ok, network_eq_ok] at h
    obtain ⟨_, _, ⟨rfl, rfl⟩, h⟩ := h
    cases hv : s.network.voltageLevels[g.voltageLevel]? with
    | none =>
      rw [hv] at h
      exact (refuse_eq_ok.mp h).elim
    | some v =>
      simp only [hv] at h
      refine ⟨rfl, v.topology, ?_⟩
      cases htopology : v.topology with
      | nodeBreaker w =>
        simp only [htopology, bind_eq_ok, emit_eq_ok] at h
        obtain ⟨_, u, h, rfl⟩ := h
        exact ⟨u, by simp [inside?, hv, htopology], rfl, h⟩
      | busBreaker l =>
        simp only [htopology, bind_eq_ok, emit_eq_ok] at h
        obtain ⟨_, u, h, rfl⟩ := h
        exact ⟨u, by simp [inside?, hv, htopology], rfl, h⟩

end Grid

end Switchyard
