import Switchyard.Modification
import Switchyard.Proofs.GridRows
import Switchyard.Proofs.History
import Switchyard.Proofs.LaidBays

namespace Switchyard

open Std Network Run

variable {n m k : Network} {s t u v : Session} {naming : NamingStrategy}
  {base switchBase : String} {positions : List BusbarPosition}

namespace Grid

/-- What is created for a position is under this id. -/
def cell (g : Grid) (naming : NamingStrategy) : BusbarPosition → String :=
  idAt naming (g.base.getD g.voltageLevel)

/-- One object of the kind is created for each position of the grid, as many as there are
busbars and sections, and nothing else but switches. -/
structure Creates (g : Grid) (naming : NamingStrategy) (kind : ObjectKind) (n m : Network) :
    Prop where
  count : ∃ ids : List String, ids.Nodup ∧
    (ids.length : Int) = g.busbarCount.toInt * g.sectionCount.toInt ∧
    ∀ id, id ∈ ids ↔ ∃ p, g.covers p = true ∧ g.cell naming p = id
  distinct : ∀ p q, g.covers p = true → g.covers q = true → g.cell naming p = g.cell naming q →
    p = q
  new : ∀ p, g.covers p = true → g.cell naming p ∉ n.index
  index_iff : ∀ (id : String) e, e.kind ≠ .switch → (m.index[id]? = some e ↔
    n.index[id]? = some e ∨
      e = ⟨kind, some g.voltageLevel⟩ ∧ ∃ p, g.covers p = true ∧ g.cell naming p = id)

/-- The grid stands in its voltage level: as busbar sections on new nodes or as buses. The
busbars are joined by their closed switches, and internal connections do not join more. -/
inductive Stands (g : Grid) (naming : NamingStrategy) (n m : Network) : Prop
  | sections (w w' : Wiring) (node : BusbarPosition → Node)
      (before : n.inside? g.voltageLevel = some (.nodeBreaker w))
      (after : m.inside? g.voltageLevel = some (.nodeBreaker w'))
      (creates : g.Creates naming .busbarSection n m)
      (placed : ∀ p, g.covers p = true → ∃ b, m.busbarSections[g.cell naming p]? = some b ∧
        b.voltageLevel = g.voltageLevel ∧ b.node = node p ∧ b.position = some p)
      (rows : g.Rows node (· ∈ w.nodes) w'.SwitchJoins)
      (rows_of_joins : g.Rows node (· ∈ w.nodes) w'.Joins)
      (spread : n.Spread g.voltageLevel → m.Spread g.voltageLevel)
  | buses (l l' : BusLayout)
      (before : n.inside? g.voltageLevel = some (.busBreaker l))
      (after : m.inside? g.voltageLevel = some (.busBreaker l'))
      (creates : g.Creates naming .bus n m)
      (placed : ∀ p, g.covers p = true → g.cell naming p ∈ l'.buses)
      (rows : g.Rows (g.cell naming) (· ∈ l.buses) l'.Joins)

variable {g : Grid} {p q : BusbarPosition}

theorem creates_of_enrols (hsized : g.Sized) {kind : ObjectKind}
    (h : n.Enrols ⟨kind, some g.voltageLevel⟩ (g.positions.map (g.cell naming)) k)
    (hk : k.Interlinked m) : g.Creates naming kind n m := by
  have hmem : ∀ id, id ∈ g.positions.map (g.cell naming) ↔
      ∃ p, g.covers p = true ∧ g.cell naming p = id := by
    simp [mem_positions_iff]
  refine ⟨⟨_, h.nodup, ?_, hmem⟩, fun p q hp hq hsame => ?_, fun p hp => ?_, fun id e he => ?_⟩
  · rw [List.length_map, hsized.length_positions]
  · exact List.inj_on_of_nodup_map h.nodup (mem_positions_iff.mpr hp) (mem_positions_iff.mpr hq)
      hsame
  · exact h.new _ ((hmem _).mpr ⟨p, hp, rfl⟩)
  · rw [hk.index_iff id e he, h.getElem?_index, ← hmem]
    split
    next hid =>
      rw [ExtTreeMap.getElem?_eq_none (h.new id hid)]
      simp [hid, eq_comm]
    next hid => simp [hid]

/-- The node for a position, where the first node for the grid is given. -/
def nodeOf (g : Grid) (first : Node) (p : BusbarPosition) : Node :=
  first + .ofNat (g.positions.idxOf p)

theorem lookup_numbered {first a : Node} :
    (numbered first g.positions).lookup p = some a ↔ g.covers p = true ∧ a = g.nodeOf first p := by
  rw [numbered_eq_map g.nodup_positions, lookup_map_eq_some, mem_positions_iff]
  rfl

theorem mem_sectionsAt {first : Node} {b : BusbarSection} :
    b ∈ (numbered first g.positions).map
        (fun x => sectionAt naming g.voltageLevel base x.1 x.2) ↔
      ∃ p, g.covers p = true ∧ b = sectionAt naming g.voltageLevel base p (g.nodeOf first p) := by
  rw [numbered_eq_map g.nodup_positions, List.map_map, List.mem_map]
  simp only [mem_positions_iff, eq_comm (a := b)]
  rfl

section

variable {w : Wiring}

theorem unplaced_nodeOf (hw : n.inside? g.voltageLevel = some (.nodeBreaker w))
    (hroom : n.Room g.voltageLevel g.positions.length) (hp : g.covers p = true) :
    n.Unplaced g.voltageLevel (g.nodeOf w.nextNode p) :=
  hroom.unplaced (List.idxOf_lt_length_of_mem (mem_positions_iff.mpr hp)) hw

variable (hroom : w.Room g.positions.length)
include hroom

theorem nodeOf_inj (hp : g.covers p = true) (hq : g.covers q = true)
    (h : g.nodeOf w.nextNode p = g.nodeOf w.nextNode q) : p = q := by
  have hp := mem_positions_iff.mpr hp
  have hsame := congrArg UInt32.toNat h
  rw [nodeOf, nodeOf, hroom.toNat_add (List.idxOf_lt_length_of_mem hp),
    hroom.toNat_add (List.idxOf_lt_length_of_mem (mem_positions_iff.mpr hq))] at hsame
  exact (List.idxOf_inj hp).mp (Nat.add_left_cancel hsame)

theorem rowStart_nodeOf (hp : g.covers p = true) :
    g.rowStart (g.nodeOf w.nextNode) (g.nodeOf w.nextNode p) =
      g.nodeOf w.nextNode { p with sectionIndex := g.lowSection } :=
  rowStart_point (fun _ _ hp hq => nodeOf_inj hroom hp hq) hp

end

/-- Sections at other positions than those there were leave all positions apart. -/
theorem spread_of_added {first : Node} (hn : n.Coherent False) (hm : m.Coherent False)
    (hfree : ∀ x ∈ n.placedSections g.voltageLevel, g.covers x.2 = false)
    (hadded : SectionInsertion.Added n.busbarSections m.busbarSections
      ((numbered first g.positions).map fun x => sectionAt naming g.voltageLevel base x.1 x.2))
    (h : n.Spread g.voltageLevel) : m.Spread g.voltageLevel := by
  have hcases : ∀ {b p}, (b, p) ∈ m.placedSections g.voltageLevel →
      (b, p) ∈ n.placedSections g.voltageLevel ∧ g.covers p = false ∨
        g.covers p = true ∧ b = sectionAt naming g.voltageLevel base p (g.nodeOf first p) := by
    intro b p hb
    obtain ⟨hb, hvl, hp⟩ := hm.mem_placedSections_iff.mp hb
    rcases (hadded.getElem?_iff _ _).mp hb with hold | ⟨hnew, -⟩
    · have hold := hn.mem_placedSections_iff.mpr ⟨hold, hvl, hp⟩
      exact Or.inl ⟨hold, hfree (b, p) hold⟩
    · obtain ⟨q, hq, rfl⟩ := mem_sectionsAt.mp hnew
      cases hp
      exact Or.inr ⟨hq, rfl⟩
  intro b b' p hb hb'
  rcases hcases hb with ⟨hold, hout⟩ | ⟨hin, rfl⟩
  · rcases hcases hb' with ⟨hold', -⟩ | ⟨hin, -⟩
    · exact h b b' p hold hold'
    · exact absurd (hout.symm.trans hin) Bool.false_ne_true
  · rcases hcases hb' with ⟨-, hout⟩ | ⟨-, rfl⟩
    · exact absurd (hout.symm.trans hin) Bool.false_ne_true
    · rfl

/-- How a grid comes to lie in a wiring: the sections on new nodes, those of a busbar linked one
to the next. All that is closed besides folds back along the busbars. -/
structure LaidSections (g : Grid) (naming : NamingStrategy) (w w' : Wiring) (fold : Node → Node)
    (n m : Network) : Prop where
  coherent : m.Coherent False
  before : n.inside? g.voltageLevel = some (.nodeBreaker w)
  after : m.inside? g.voltageLevel = some (.nodeBreaker w')
  grown : w.Grown fold w'
  fold_old : ∀ a ∈ w.places, fold a = g.rowStart (g.nodeOf w.nextNode) a
  fold_node : ∀ p, g.covers p = true →
    fold (g.nodeOf w.nextNode p) = g.nodeOf w.nextNode { p with sectionIndex := g.lowSection }
  linked : ∀ p, g.covers p = true → g.covers { p with sectionIndex := p.sectionIndex + 1 } = true →
    w'.SwitchJoins (g.nodeOf w.nextNode p)
      (g.nodeOf w.nextNode { p with sectionIndex := p.sectionIndex + 1 })
  enrols : ∃ k, n.Enrols ⟨.busbarSection, some g.voltageLevel⟩ (g.positions.map (g.cell naming)) k ∧
    k.Interlinked m
  free : ∀ x ∈ n.placedSections g.voltageLevel, g.covers x.2 = false
  added : SectionInsertion.Added n.busbarSections m.busbarSections
    ((numbered w.nextNode g.positions).map fun x =>
      sectionAt naming g.voltageLevel (g.base.getD g.voltageLevel) x.1 x.2)

theorem placed_of_createSections (hs : s.network.Coherent False) {first : Node} {w : Wiring}
    (h : createSections naming g.voltageLevel base first g.positions s =
      .ok (numbered first g.positions) u)
    (hw : u.network.inside? g.voltageLevel = some (.nodeBreaker w)) (hp : g.covers p = true) :
    g.nodeOf first p ∈ w.places := by
  have hmade : Makes (Change.Extends u.network.fold)
      (createSections naming g.voltageLevel base first g.positions) s :=
    makes_createSections fun _ _ _ => trivial
  have hu := (hmade.grown hs h).1
  obtain ⟨-, -, hadded⟩ := createSections_eq_ok hs h
  have hb := (hadded.getElem?_iff _ _).mpr (Or.inr ⟨mem_sectionsAt.mpr ⟨p, hp, rfl⟩, rfl⟩)
  exact (hu.sound _ w hw).placed_of_referenced (hu.referenced_rail (hu.hasRail hb) hw)

theorem laidSections_of_ok (hs : s.network.Coherent False) (hsized : g.Sized)
    (hroom : s.network.Room g.voltageLevel g.nodeCount)
    (h : g.stepsOnNodes naming (g.base.getD g.voltageLevel) switchBase s = .ok () t) :
    ∃ w w' fold, g.LaidSections naming w w' fold s.network t.network := by
  obtain ⟨w, created, u, v, hw, hfree, hkinds, hcreated, hlinks, hconnect⟩ := stepsOnNodes_eq_ok h
  obtain ⟨rfl, henrols, hadded⟩ := createSections_eq_ok hs hcreated
  obtain ⟨hu, w₁, hw₁, hgrown₁⟩ := grown_createSections hs hw hcreated
  have hlength : w.Room g.positions.length := (hroom w hw).mono (Nat.le_add_right _ _)
  have hplaced : ∀ p a, (numbered w.nextNode g.positions).lookup p = some a → a ∈ w₁.places := by
    intro p a ha
    obtain ⟨hp, rfl⟩ := lookup_numbered.mp ha
    exact placed_of_createSections hs hcreated hw₁ hp
  have hrow : ∀ p a b, (numbered w.nextNode g.positions).lookup p = some a →
      (numbered w.nextNode g.positions).lookup { p with sectionIndex := p.sectionIndex + 1 } =
        some b → g.rowStart (g.nodeOf w.nextNode) a = g.rowStart (g.nodeOf w.nextNode) b := by
    intro p a b ha hb
    obtain ⟨hp, rfl⟩ := lookup_numbered.mp ha
    obtain ⟨hafter, rfl⟩ := lookup_numbered.mp hb
    rw [rowStart_nodeOf hlength hp, rowStart_nodeOf hlength hafter]
  obtain ⟨hv, huv, ⟨w₂, fold, hw₂, hagree, hgrown₂⟩, hjoined⟩ :=
    linkSections_eq_ok hu hw₁ hplaced hrow (room_of_createSections hs hw hroom hcreated) hlinks
  obtain ⟨ht, hvt, hgrown⟩ :=
    developed_of_connected (f := ⟨fun _ => fold, fun _ b => b⟩) hv hconnect
  obtain ⟨w', hw', hgrown₃⟩ := hgrown.wiring hw₂
  refine ⟨w, w', fold,
    { coherent := ht
      before := hw
      after := hw'
      grown := ((hgrown₁ fold).trans hgrown₂).trans hgrown₃
      fold_old := fun a ha => hagree a ((hgrown₁ fold).places a ha)
      fold_node := fun p hp =>
        (hagree _ (hplaced p _ (lookup_numbered.mpr ⟨hp, rfl⟩))).trans (rowStart_nodeOf hlength hp)
      linked := fun p hp hafter => ?_
      enrols := ⟨_, henrols, huv.trans hvt⟩
      free := hfree
      added := by rwa [hvt.busbarSections, huv.busbarSections] }⟩
  obtain ⟨kind, hlink⟩ := hsized.exists_link hkinds hp hafter
  obtain ⟨x, hx, hj⟩ := hgrown.switchJoins (hjoined _ hlink _ _ (lookup_numbered.mpr ⟨hp, rfl⟩)
    (lookup_numbered.mpr ⟨hafter, rfl⟩))
  cases hw'.symm.trans hx
  exact hj

namespace LaidSections

variable {w w' : Wiring} {fold : Node → Node}

theorem rowFold (h : g.LaidSections naming w w' fold n m) (hn : n.Coherent False)
    (hroom : n.Room g.voltageLevel g.positions.length) :
    g.RowFold (g.nodeOf w.nextNode) (· ∈ w.nodes) w.Closes w'.Closes fold := by
  have hnew : ∀ p, g.covers p = true → g.nodeOf w.nextNode p ∉ w.nodes := fun p hp hin =>
    unplaced_nodeOf h.before hroom hp w h.before (Wiring.mem_nodes.mp hin)
  exact
    { ends := fun _ _ => (hn.sound _ w h.before).mem_nodes_of_closes
      injective := fun _ _ => nodeOf_inj (hroom w h.before)
      new := hnew
      closes := h.grown.closes
      fold_old := fun a ha => (h.fold_old a (Wiring.mem_nodes.mp ha)).trans <|
        rowStart_of_old fun p hp he => hnew p hp (he ▸ ha)
      fold_point := h.fold_node }

theorem stands (h : g.LaidSections naming w w' fold n m) (hn : n.Coherent False)
    (hsized : g.Sized) (hroom : n.Room g.voltageLevel g.positions.length) :
    g.Stands naming n m := by
  have hfold := h.rowFold hn hroom
  have hequiv := fun r => @Relation.EqvGen.is_equivalence Node r
  obtain ⟨k, henrols, hk⟩ := h.enrols
  refine .sections w w' (g.nodeOf w.nextNode) h.before h.after
    (creates_of_enrols hsized henrols hk) (fun p hp => ?_) ?_ ?_
    (spread_of_added hn h.coherent h.free h.added)
  · have hb := (h.added.getElem?_iff _ _).mpr (Or.inr ⟨mem_sectionsAt.mpr ⟨p, hp, rfl⟩, rfl⟩)
    exact ⟨_, hb, rfl, rfl, rfl⟩
  · exact hfold.rows (hequiv _) (fun _ _ => Wiring.SwitchJoins.joins) h.linked
  · exact hfold.rows (hequiv _) (fun _ _ hj => hj) fun p hp hafter =>
      (h.linked p hp hafter).joins

end LaidSections

/-- What the links close between the buses folds back along the busbars. -/
theorem grown_of_linkBuses (hs : s.network.Coherent False) {l : BusLayout}
    (hl : s.network.inside? g.voltageLevel = some (.busBreaker l))
    (hinj : ∀ p q, g.covers p = true → g.covers q = true →
      g.cell naming p = g.cell naming q → p = q)
    (hcreated : createBuses naming g.voltageLevel base g.positions s =
      .ok (g.positions.map fun p => (p, g.cell naming p)) u)
    (hlinks : linkBuses naming g.voltageLevel switchBase
      (g.positions.map fun p => (p, g.cell naming p)) positions u = .ok () t) :
    u.network.Coherent False ∧ t.network.Coherent False ∧ u.network.Interlinked t.network ∧
      ∃ l', t.network.inside? g.voltageLevel = some (.busBreaker l') ∧
        l.Grown (g.rowStart (g.cell naming)) l' := by
  let f : Fold := ⟨fun _ a => a, fun _ => g.rowStart (g.cell naming)⟩
  obtain ⟨hu, hgrown₁⟩ := (makes_createBuses (f := f) _).grown hs hcreated
  have hmade : Makes (Change.Switches f) (linkBuses naming g.voltageLevel switchBase
      (g.positions.map fun p => (p, g.cell naming p)) positions) u := by
    refine makes_linkBuses (fun x hx y hy hrow => ?_) _
    obtain ⟨p, hp, rfl⟩ := List.mem_map.mp hx
    obtain ⟨q, hq, rfl⟩ := List.mem_map.mp hy
    have hrow : p.busbarIndex = q.busbarIndex := hrow
    have hp := rowStart_point hinj (mem_positions_iff.mp hp)
    have hq := rowStart_point hinj (mem_positions_iff.mp hq)
    rw [hrow] at hp
    exact hp.trans hq.symm
  obtain ⟨ht, hut, hgrown₂⟩ := hmade.developed hu hlinks
  exact ⟨hu, ht, hut, (hgrown₁.trans hgrown₂).layout hl⟩

theorem busJoins_of_linkBuses (hs : s.network.Coherent False)
    (hlinks : linkBuses naming g.voltageLevel switchBase
      (g.positions.map fun p => (p, g.cell naming p))
      (g.positions.filter (·.sectionIndex != g.lowSection)) s = .ok () t)
    (hp : g.covers p = true)
    (hafter : g.covers { p with sectionIndex := p.sectionIndex + 1 } = true) :
    t.network.BusJoins g.voltageLevel (g.cell naming p)
      (g.cell naming { p with sectionIndex := p.sectionIndex + 1 }) := by
  have hlast : p.sectionIndex + 1 ≠ g.lowSection := by
    intro he
    have hlow := Int32.le_iff_toInt_le.mp (covers_iff.mp hp).2.1
    have hone := toInt_after hp
    rw [he] at hone
    omega
  have hmem : { p with sectionIndex := p.sectionIndex + 1 } ∈
      g.positions.filter (·.sectionIndex != g.lowSection) :=
    List.mem_filter.mpr ⟨mem_positions_iff.mpr hafter, bne_iff_ne.mpr hlast⟩
  have hbefore : { p with sectionIndex := p.sectionIndex + 1 - 1 } = p := by
    cases p
    simp
  have hjoined := linkBuses_eq_ok hs hlinks _ hmem (g.cell naming p)
    (g.cell naming { p with sectionIndex := p.sectionIndex + 1 })
  simp only [hbefore, lookup_map_eq_some, mem_positions_iff, and_true] at hjoined
  exact hjoined hp hafter

theorem stands_stepsOnBuses (hs : s.network.Coherent False) (hsized : g.Sized)
    {l : BusLayout} (hl : s.network.inside? g.voltageLevel = some (.busBreaker l))
    (h : g.stepsOnBuses naming (g.base.getD g.voltageLevel) switchBase s = .ok () t) :
    g.Stands naming s.network t.network := by
  obtain ⟨buses, u, hcreated, hlinks⟩ := stepsOnBuses_eq_ok h
  obtain ⟨rfl, henrols⟩ := createBuses_eq_ok hcreated
  have hinj : ∀ p q, g.covers p = true → g.covers q = true →
      g.cell naming p = g.cell naming q → p = q := fun p q hp hq =>
    List.inj_on_of_nodup_map henrols.nodup (mem_positions_iff.mpr hp) (mem_positions_iff.mpr hq)
  obtain ⟨hu, ht, hut, l', hl', hgrown⟩ := grown_of_linkBuses hs hl hinj hcreated hlinks
  have hcreates := creates_of_enrols hsized henrols hut
  have hnew : ∀ p, g.covers p = true → g.cell naming p ∉ l.buses := fun p hp hb =>
    hcreates.new p hp (hs.mem_index (.inside hl (Or.inr ⟨rfl, hb⟩)))
  have hplaced : ∀ p, g.covers p = true → g.cell naming p ∈ l'.buses := by
    intro p hp
    obtain ⟨x, hx, hb⟩ := ht.hasBus_iff.mpr
      ((hcreates.index_iff _ _ (by simp)).mpr (Or.inr ⟨rfl, p, hp, rfl⟩))
    cases hl'.symm.trans hx
    exact hb
  have hfold : g.RowFold (g.cell naming) (· ∈ l.buses) l.Closes l'.Closes
      (g.rowStart (g.cell naming)) :=
    { ends := by
        rintro a b ⟨x, hx, -, rfl, rfl⟩
        obtain ⟨id, hx⟩ := mem_values_iff.mp hx
        exact ((hs.inside _ _ hl).2 id x hx).2.2
      injective := hinj
      new := hnew
      closes := hgrown.closes
      fold_old := fun a ha => rowStart_of_old fun p hp he => hnew p hp (he ▸ ha)
      fold_point := fun p hp => rowStart_point hinj hp }
  refine .buses l l' hl hl' hcreates hplaced (hfold.rows
    (Relation.EqvGen.is_equivalence _) (fun _ _ hj => hj) fun p hp hafter => ?_)
  obtain ⟨x, hx, hj⟩ := busJoins_of_linkBuses hu hlinks hp hafter
  cases hl'.symm.trans hx
  exact hj

theorem stands_steps (hs : s.network.Coherent False) (hindices : g.HasIndices)
    (hroom : s.network.Room g.voltageLevel g.nodeCount) (h : g.steps naming s = .ok () t) :
    g.Stands naming s.network t.network := by
  obtain ⟨hcounts, topology, u, htopology, ht, hsteps⟩ := steps_eq_ok h
  have hsized := sized_of_checkCounts hcounts hindices
  rw [ht]
  cases topology with
  | nodeBreaker w =>
    obtain ⟨_, _, _, hlaid⟩ := laidSections_of_ok hs hsized hroom hsteps
    exact hlaid.stands hs hsized (hroom.mono (Nat.le_add_right _ _))
  | busBreaker l => exact stands_stepsOnBuses hs hsized htopology hsteps

end Grid

namespace Modification

/-- A busbar section with a load on it, and a voltage level with a bus. -/
def loadedRail : List Operation :=
  [.change (.addVoltageLevel { id := "V" }),
    .change (.addBusbarSection
      { voltageLevel := "V", id := "B", node := 0, position := some ⟨3, 1⟩ }),
    .change (.addSwitch { voltageLevel := "V", id := "D", node1 := 0, node2 := 1 }),
    .change (.addConnectable (.injection
      { owner := 0, id := "L", terminal := some (.atNode "V" 1) })),
    .change (.addVoltageLevel { id := "W", kind := .busBreaker }),
    .change (.addBus { voltageLevel := "W", id := "C" })]

/-- Two busbars of three sections each, linked by a breaker and a disconnector. -/
def twoBusbars (voltageLevel : String) : Grid where
  voltageLevel
  lowBusbar := 1
  busbarCount := 2
  lowSection := 1
  sectionCount := 3
  base := none
  switchBase := none
  switchKinds := [.breaker, .disconnector]
  connectExisting := true

/-- One busbar of one section, at the last section index. -/
def lastSection : Grid where
  voltageLevel := "V"
  lowBusbar := 1
  busbarCount := 1
  lowSection := .maxValue
  sectionCount := 1
  base := none
  switchBase := none
  switchKinds := []
  connectExisting := false

end Modification

end Switchyard
