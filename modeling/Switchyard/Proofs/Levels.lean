import Switchyard.Proofs.Elsewhere

namespace Switchyard

open Std Network

theorem Topology.Augmented.empty (kind : TopologyKind) :
    Topology.Augmented ∅ ∅ (.empty kind) (.empty kind) := by
  cases kind with
  | nodeBreaker => exact .wiring .empty .empty (.refl {})
  | busBreaker => exact .layout {}

namespace Network

variable {X : Set String} {S : Set Switch} {C : Set Connectable} {n m k : Network}
  {vl id : String} {v : VoltageLevel} {s : Substation}

theorem equipmentIn_eq_nil_iff :
    n.equipmentIn vl = [] ↔
      ∀ id c, n.Keeps id c → c.isBusbarSection = false → c.isIn vl = false := by
  simp only [equipmentIn, connectablesIn, List.filter_eq_nil_iff, List.mem_filter,
    mem_connectables_iff]
  grind

theorem shell?_withoutLevel {x : String} {v : VoltageLevel} :
    (n.withoutLevel vl).shell? x = some v ↔ n.shell? x = some v ∧ x ≠ vl := by
  simp only [shell?, Option.map_eq_some_iff, getElem?_voltageLevels_withoutLevel]
  grind

theorem shell?_withLevel (n : Network) (v : VoltageLevel) (x : String) :
    (n.withLevel v).shell? x = if v.id = x then some v.shell else n.shell? x := by
  simp only [shell?, withLevel, ExtTreeMap.getElem?_insert, Std.compare_eq_iff_eq]
  split <;> rfl

theorem Coherent.mem_voltageLevels_of_attaches (h : n.Coherent False) {node : Node} {a : Attachment}
    (ha : n.Attaches a (.atNode vl node)) : vl ∈ n.voltageLevels := by
  obtain ⟨w, hw, -⟩ := (h.holdsAt_iff vl node a).mpr ha
  rw [← inside?_isSome_iff, hw, Option.isSome_some]

theorem Coherent.isIn_eq_false (h : n.Coherent False) (hvl : vl ∉ n.voltageLevels) {c : Connectable}
    (hc : n.Keeps id c) : c.isIn vl = false := by
  rw [Connectable.isIn, List.any_eq_false]
  rintro ⟨side, x, connection⟩ hx
  have hne : x ≠ vl := by
    rintro rfl
    cases connection with
    | node node => exact hvl (h.mem_voltageLevels_of_attaches (a := ⟨id, side⟩) ⟨c, hc, hx⟩)
    | bus bus =>
      obtain ⟨l, hl, -⟩ := h.hasBus ⟨id, side⟩ x bus ⟨c, hc, hx⟩
      refine hvl ?_
      rw [← inside?_isSome_iff, hl, Option.isSome_some]
  simpa using hne

theorem terminalsAt_eq_empty (hC : ∀ c ∈ C, c.isIn vl = false) :
    terminalsAt (attachments C) vl = ∅ := by
  ext x
  simp only [terminalsAt, attachments, Set.mem_ofPred_eq, Set.mem_empty_iff_false, iff_false]
  rintro ⟨c, hc, -, hside⟩
  have hin := hC c hc
  rw [Connectable.isIn, List.any_eq_false] at hin
  exact hin _ hside (beq_self_eq_true _)

/-- What is left of a network once a voltage level that is without equipment is
removed, with its substation if that is left without voltage levels. -/
def cleared (n : Network) (vl : String) : Network :=
  if n.equipmentIn vl = [] then
    match (n.shell? vl).bind (·.substation) with
    | none => n.withoutLevel vl
    | some id =>
      if (n.withoutLevel vl).voltageLevelsIn id = [] then
        (n.withoutLevel vl).withoutSubstation id
      else n.withoutLevel vl
  else n

theorem cleared_cases (n : Network) (vl : String) :
    n.cleared vl = n ∨ n.cleared vl = n.withoutLevel vl ∨
      ∃ id, n.cleared vl = (n.withoutLevel vl).withoutSubstation id := by
  unfold cleared
  split
  · split
    · exact Or.inr (Or.inl rfl)
    · split
      · exact Or.inr (Or.inr ⟨_, rfl⟩)
      · exact Or.inr (Or.inl rfl)
  · exact Or.inl rfl

theorem getElem?_voltageLevels_cleared {x : String} (hne : x ≠ vl) :
    (n.cleared vl).voltageLevels[x]? = n.voltageLevels[x]? := by
  have hleft : (n.withoutLevel vl).voltageLevels[x]? = n.voltageLevels[x]? := by
    apply Option.ext
    intro v
    rw [getElem?_voltageLevels_withoutLevel]
    exact and_iff_left hne
  obtain he | he | ⟨id, he⟩ := n.cleared_cases vl
  · rw [he]
  · rw [he, hleft]
  · rw [he, ← hleft]
    rfl

theorem inside?_cleared {x : String} (hne : x ≠ vl) : (n.cleared vl).inside? x = n.inside? x := by
  rw [inside?, inside?, getElem?_voltageLevels_cleared hne]

theorem seats_cleared {t : Terminal} (hne : t.voltageLevel ≠ vl) (h : n.Seats t) :
    (n.cleared vl).Seats t := by
  rintro x node w rfl hw hp
  exact h x node w rfl (inside?_cleared hne ▸ hw) hp

/-- Equipment keeps a voltage level from being cleared. -/
theorem mem_voltageLevels_cleared (hvl : vl ∈ n.voltageLevels) :
    vl ∈ (n.cleared vl).voltageLevels ↔ n.equipmentIn vl ≠ [] := by
  have hgone : vl ∉ (n.withoutLevel vl).voltageLevels := by simp [withoutLevel]
  unfold cleared
  split
  next hfree =>
    refine iff_of_false ?_ (not_not.mpr hfree)
    split
    · exact hgone
    · split <;> exact hgone
  next hused => exact iff_of_true hvl hused

/-- The voltage level belongs to the substation. -/
def InSubstation (n : Network) (vl id : String) : Prop :=
  ∃ v, n.voltageLevels[vl]? = some v ∧ v.substation = some id

theorem inSubstation_iff : n.InSubstation vl id ↔ (n.shell? vl).bind (·.substation) = some id := by
  rw [shell?, Option.bind_map, Option.bind_eq_some_iff]
  rfl

theorem not_mem_substations_cleared (hvl : n.InSubstation vl id) (hid : id ∈ n.substations) :
    id ∉ (n.cleared vl).substations ↔
      n.equipmentIn vl = [] ∧ ∀ x, n.InSubstation x id → x = vl := by
  have hlast : (n.withoutLevel vl).voltageLevelsIn id = [] ↔ ∀ x, n.InSubstation x id → x = vl := by
    simp only [voltageLevelsIn, List.filter_eq_nil_iff, mem_values_iff,
      getElem?_voltageLevels_withoutLevel, beq_iff_eq]
    constructor
    · rintro h x ⟨u, hu, hs⟩
      by_contra hne
      exact h u ⟨x, hu, hne⟩ hs
    · rintro h u ⟨x, hu, hne⟩ hs
      exact hne (h x ⟨u, hu, hs⟩)
  rw [← hlast]
  unfold cleared
  rw [inSubstation_iff.mp hvl]
  split
  next hfree =>
    dsimp only
    split
    next hlast => exact iff_of_true (by simp [withoutSubstation]) ⟨hfree, hlast⟩
    next hlast => exact iff_of_false (not_not.mpr hid) fun h => hlast h.2
  next hused => exact iff_of_false (not_not.mpr hid) fun h => hused h.1

theorem mem_index_of_cleared {x : String} (hx : x ∈ (n.cleared vl).index) : x ∈ n.index := by
  have hleft : x ∈ (n.withoutLevel vl).index → x ∈ n.index := by
    intro hx
    obtain ⟨e, he⟩ := mem_iff_exists_getElem?.mp hx
    exact mem_iff_exists_getElem?.mpr ⟨e, (getElem?_index_withoutLevel.mp he).1⟩
  obtain he | he | ⟨id, he⟩ := n.cleared_cases vl
  · rwa [he] at hx
  · exact hleft (he ▸ hx)
  · rw [he] at hx
    exact hleft (ExtTreeMap.mem_of_mem_erase hx)

theorem keeps_cleared {c : Connectable} (hc : c.holder ≠ some vl) :
    (n.cleared vl).Keeps id c ↔ n.Keeps id c := by
  have hleft : (n.withoutLevel vl).Keeps id c ↔ n.Keeps id c := by
    rw [keeps_withoutLevel]
    exact and_iff_left hc
  obtain he | he | ⟨x, he⟩ := n.cleared_cases vl
  · rw [he]
  · rw [he, hleft]
  · rw [he, ← hleft]
    cases c <;> rfl

theorem Coherent.busbarSection_ne (h : n.Coherent False) (hvl : vl ∉ n.voltageLevels)
    {b : BusbarSection} (hb : n.busbarSections[id]? = some b) : b.voltageLevel ≠ vl := by
  have hin := h.isIn_eq_false hvl (c := .busbarSection b) hb
  simpa [Connectable.isIn, Connectable.terminals, BusbarSection.terminal,
    Terminal.atNode] using hin

theorem Coherent.voltageLevel_ne_of_index (h : n.Coherent False) (hvl : vl ∉ n.voltageLevels)
    {entry : IndexEntry} (he : n.index[id]? = some entry) : entry.voltageLevel ≠ some vl := by
  intro hx
  rcases stores_iff.mp ((h.index_iff id entry).mp he) with
    ⟨-, rfl⟩ | ⟨-, rfl⟩ | ⟨x, t, kind, ht, -, rfl⟩ | ⟨c, hc, rfl⟩
  · cases hx
  · cases hx
  · cases hx
    refine hvl ?_
    rw [← inside?_isSome_iff, ht, Option.isSome_some]
  · cases c with
    | busbarSection b => exact h.busbarSection_ne hvl hc (Option.some.inj hx)
    | injection i => cases hx
    | branch b => cases hx
    | transformer t => cases hx

/-- A voltage level that was just created is removed without a trace. -/
theorem Coherent.withoutLevel_withLevel (h : n.Coherent False) (hid : v.id ∉ n.index) :
    (n.withLevel v).withoutLevel v.id = n := by
  have hlevel : v.id ∉ n.voltageLevels := fun hm => h.stores_of_index hid _ (.voltageLevel hm)
  have hbusbars : n.busbarSections.filter (fun _ b => b.voltageLevel != v.id) =
      n.busbarSections := by
    apply ExtTreeMap.ext_getElem?
    intro x
    apply Option.ext
    intro b
    rw [ExtTreeMap.getElem?_filter', Option.filter_eq_some_iff]
    exact ⟨And.left, fun hb => ⟨hb, by simpa using h.busbarSection_ne hlevel hb⟩⟩
  have hindex : (n.index.insert v.id ⟨.voltageLevel, none⟩).filter
      (fun x e => x != v.id && e.voltageLevel != some v.id) = n.index := by
    apply ExtTreeMap.ext_getElem?
    intro x
    apply Option.ext
    intro e
    rw [ExtTreeMap.getElem?_filter', Option.filter_eq_some_iff, ExtTreeMap.getElem?_insert]
    by_cases hx : v.id = x
    · subst hx
      simp [ExtTreeMap.getElem?_eq_none hid]
    · simp only [Std.compare_eq_iff_eq, if_neg hx, Bool.and_eq_true, bne_iff_ne]
      exact ⟨And.left, fun he => ⟨he, Ne.symm hx, h.voltageLevel_ne_of_index hlevel he⟩⟩
  unfold Network.withoutLevel Network.withLevel register
  dsimp only
  rw [hbusbars, hindex, erase_insert_of_not_mem hlevel]

theorem Coherent.withoutSubstation_withSubstation (h : n.Coherent False) (hid : s.id ∉ n.index) :
    (n.withSubstation s).withoutSubstation s.id = n := by
  have hs : s.id ∉ n.substations := fun hm => h.stores_of_index hid _ (.substation hm)
  unfold Network.withoutSubstation Network.withSubstation register
  dsimp only
  rw [erase_insert_of_not_mem hs, erase_insert_of_not_mem hid]

theorem Coherent.equipmentIn_withLevel (h : n.Coherent False) (hid : v.id ∉ n.index) :
    (n.withLevel v).equipmentIn v.id = [] := by
  have hlevel : v.id ∉ n.voltageLevels := fun hm => h.stores_of_index hid _ (.voltageLevel hm)
  refine equipmentIn_eq_nil_iff.mpr fun x c hc _ => ?_
  have hold : n.Keeps x c := by
    cases c <;> exact hc
  exact h.isIn_eq_false hlevel hold

/-- Clearing undoes the creation of a voltage level outside of substations. -/
theorem Coherent.cleared_withLevel (h : n.Coherent False) (hid : v.id ∉ n.index)
    (hs : v.substation = none) : (n.withLevel v).cleared v.id = n := by
  have hsub : ((n.withLevel v).shell? v.id).bind (·.substation) = none := by
    rw [shell?_withLevel, if_pos rfl]
    exact hs
  rw [cleared, if_pos (h.equipmentIn_withLevel hid), hsub]
  exact h.withoutLevel_withLevel hid

/-- Clearing undoes the creation of a voltage level with its substation. -/
theorem Coherent.cleared_withSubstation (h : n.Coherent False) (hs : s.id ∉ n.index)
    (hid : v.id ∉ (n.withSubstation s).index) (hv : v.substation = some s.id) :
    ((n.withSubstation s).withLevel v).cleared v.id = n := by
  have hk := (h.withSubstation hs).coherent
  have hsub : (((n.withSubstation s).withLevel v).shell? v.id).bind (·.substation) =
      some s.id := by
    rw [shell?_withLevel, if_pos rfl]
    exact hv
  have hnone : (n.withSubstation s).voltageLevelsIn s.id = [] := by
    refine voltageLevelsIn_eq_nil_iff.mpr fun x u hu hx => ?_
    obtain ⟨w, hw, rfl⟩ := Option.map_eq_some_iff.mp hu
    exact h.stores_of_index hs _ (.substation (h.substation_mem x w s.id hw hx))
  rw [cleared, if_pos (hk.equipmentIn_withLevel hid), hsub]
  dsimp only
  rw [hk.withoutLevel_withLevel hid, if_pos hnone, h.withoutSubstation_withSubstation hs]

namespace Extended

theorem getElem?_index (h : Extended ∅ S C n m) {entry : IndexEntry}
    (he : n.index[id]? = some entry) : m.index[id]? = some entry := by
  refine (h.coherent.index_iff id entry).mpr ?_
  rcases stores_iff.mp ((h.base.index_iff id entry).mp he) with
    ⟨hs, rfl⟩ | ⟨hv, rfl⟩ | ⟨vl, t, kind, ht, hh, rfl⟩ | ⟨c, hc, rfl⟩
  · exact .substation (h.substations ▸ hs)
  · exact .voltageLevel ((mem_voltageLevels_of_shell h.shell).mpr hv)
  · obtain ⟨u, hu, ha⟩ := h.inside vl (Set.notMem_empty vl) t ht
    refine .inside hu ?_
    cases ha with
    | layout l => exact hh
    | wiring _ _ ha =>
      obtain ⟨s, hs⟩ := mem_iff_exists_getElem?.mp hh.2
      exact ⟨hh.1, mem_iff_exists_getElem?.mpr ⟨s, ha.getElem?_switches.mpr (Or.inl hs)⟩⟩
  · exact .connectable ((h.keeps_iff id c).mpr (Or.inl hc))

theorem mem_index (h : Extended ∅ S C n m) (hid : id ∈ n.index) : id ∈ m.index := by
  obtain ⟨entry, he⟩ := mem_iff_exists_getElem?.mp hid
  exact mem_iff_exists_getElem?.mpr ⟨entry, h.getElem?_index he⟩

/-- A substation created in both networks does not tell them apart. -/
theorem withSubstation (h : Extended ∅ S C n m) (hid : s.id ∉ m.index) :
    Extended ∅ S C (n.withSubstation s) (m.withSubstation s) := by
  have hbase : s.id ∉ n.index := fun hm => hid (h.mem_index hm)
  refine ⟨⟨h.shell, h.inside⟩, (h.base.withSubstation hbase).coherent,
    (h.coherent.withSubstation hid).coherent, ?_, fun x c => ?_, fun c hc d => ?_, h.free⟩
  · rw [Network.withSubstation, Network.withSubstation, h.substations]
  · have hkeeps := h.keeps_iff x c
    cases c <;> exact hkeeps
  · have hfresh := h.fresh c hc d
    cases d <;> exact hfresh

theorem withLevel (h : Extended ∅ ∅ C n m) {kind : TopologyKind} (hid : v.id ∉ m.index)
    (ht : v.topology = .empty kind) (hs : ∀ s, v.substation = some s → s ∈ m.substations) :
    Extended ∅ ∅ C (n.withLevel v) (m.withLevel v) := by
  have hbase : v.id ∉ n.index := fun hm => hid (h.mem_index hm)
  have hlevel : v.id ∉ m.voltageLevels := fun hm =>
    h.coherent.stores_of_index hid _ (.voltageLevel hm)
  refine ⟨⟨fun x => ?_, fun x hx t hin => ?_⟩,
    (h.base.withLevel hbase ht (h.substations ▸ hs)).coherent,
    (h.coherent.withLevel hid ht hs).coherent, h.substations, fun x c => ?_,
    fun c hc d => ?_, h.free⟩
  · rw [shell?_withLevel, shell?_withLevel, h.shell]
  · rw [inside?_withLevel] at hin ⊢
    split at hin
    next he =>
      subst he
      cases hin
      have hS : switchesAt ∅ v.id = ∅ := by simp [switchesAt]
      have hT : terminalsAt (attachments C) v.id = ∅ :=
        terminalsAt_eq_empty fun c hc => h.coherent.isIn_eq_false hlevel (h.keeps_new hc)
      rw [if_pos rfl, hS, hT, ht]
      exact ⟨_, rfl, .empty kind⟩
    next he =>
      rw [if_neg he]
      exact h.inside x hx t hin
  · have hkeeps := h.keeps_iff x c
    cases c <;> exact hkeeps
  · have hfresh := h.fresh c hc d
    cases d <;> exact hfresh

theorem equipmentIn_eq_nil (h : Extended X S C n m) (hC : ∀ c ∈ C, c.isIn vl = false) :
    m.equipmentIn vl = [] ↔ n.equipmentIn vl = [] := by
  simp only [equipmentIn_eq_nil_iff, h.keeps_iff]
  grind

theorem voltageLevelsIn_eq_nil (h : Extended X S C n m) :
    m.voltageLevelsIn id = [] ↔ n.voltageLevelsIn id = [] := by
  simp only [voltageLevelsIn_eq_nil_iff, h.shell]

/-- A voltage level that nothing besides is attached to leaves both networks. -/
theorem withoutLevel (h : Extended X S C n m) (hC : ∀ c ∈ C, c.isIn vl = false)
    (hvl : vl ∈ m.voltageLevels) (hfree : m.equipmentIn vl = []) :
    Extended (X \ {vl}) S C (n.withoutLevel vl) (m.withoutLevel vl) := by
  have hvl' := (mem_voltageLevels_of_shell h.shell).mp hvl
  have hfree' := (h.equipmentIn_eq_nil hC).mp hfree
  refine ⟨⟨fun x => ?_, fun x hx t ht => ?_⟩, h.base.withoutLevel hvl' hfree',
    h.coherent.withoutLevel hvl hfree, h.substations, fun x c => ?_, fun c hc d hd => ?_, h.free⟩
  · apply Option.ext
    intro v
    rw [shell?_withoutLevel, shell?_withoutLevel, h.shell]
  · obtain ⟨ht, hne⟩ := inside?_withoutLevel.mp ht
    obtain ⟨u, hu, ha⟩ := h.inside x (fun hm => hx ⟨hm, hne⟩) t ht
    exact ⟨u, inside?_withoutLevel.mpr ⟨hu, hne⟩, ha⟩
  · have hholder : c ∈ C → c.holder ≠ some vl := fun hc => by simp [h.free c hc]
    rw [keeps_withoutLevel, keeps_withoutLevel, h.keeps_iff]
    grind
  · exact h.fresh c hc d (keeps_withoutLevel.mp hd).1

theorem withoutSubstation (h : Extended X S C n m) (hid : id ∈ m.substations)
    (hfree : m.voltageLevelsIn id = []) :
    Extended X S C (n.withoutSubstation id) (m.withoutSubstation id) := by
  have hid' : id ∈ n.substations := h.substations ▸ hid
  have hfree' := h.voltageLevelsIn_eq_nil.mp hfree
  refine ⟨⟨h.shell, h.inside⟩, h.base.withoutSubstation hid' hfree',
    h.coherent.withoutSubstation hid hfree, ?_, fun x c => ?_, fun c hc d => ?_, h.free⟩
  · rw [Network.withoutSubstation, Network.withoutSubstation, h.substations]
  · have hkeeps := h.keeps_iff x c
    cases c <;> exact hkeeps
  · have hfresh := h.fresh c hc d
    cases d <;> exact hfresh

/-- A voltage level cleared in both networks does not tell them apart. -/
theorem cleared (h : Extended X S C n m) (hC : ∀ c ∈ C, c.isIn vl = false)
    (hX : ∀ x ∈ X, x = vl ∧ n.equipmentIn vl = [])
    (hvl : m.equipmentIn vl = [] → vl ∈ m.voltageLevels) :
    Extended ∅ S C (n.cleared vl) (m.cleared vl) := by
  by_cases hfree : m.equipmentIn vl = []
  · have hfree' := (h.equipmentIn_eq_nil hC).mp hfree
    have hnone : X \ {vl} = ∅ := Set.sdiff_eq_empty.mpr fun x hx => (hX x hx).1
    have hk := hnone ▸ h.withoutLevel hC (hvl hfree) hfree
    rw [Network.cleared, Network.cleared, if_pos hfree, if_pos hfree', h.shell]
    cases hsub : (n.shell? vl).bind (·.substation) with
    | none => exact hk
    | some id =>
      obtain ⟨v, hv, hs⟩ := Option.bind_eq_some_iff.mp hsub
      obtain ⟨w, hw, rfl⟩ := Option.map_eq_some_iff.mp hv
      have hid : id ∈ m.substations := h.substations ▸ h.base.substation_mem vl w id hw hs
      by_cases hlast : (m.withoutLevel vl).voltageLevelsIn id = []
      · have hlast' := hk.voltageLevelsIn_eq_nil.mp hlast
        dsimp only
        rw [if_pos hlast, if_pos hlast']
        exact hk.withoutSubstation hid hlast
      · have hlast' : (n.withoutLevel vl).voltageLevelsIn id ≠ [] := fun he =>
          hlast (hk.voltageLevelsIn_eq_nil.mpr he)
        dsimp only
        rw [if_neg hlast, if_neg hlast']
        exact hk
  · have hfree' : n.equipmentIn vl ≠ [] := fun he => hfree ((h.equipmentIn_eq_nil hC).mpr he)
    have hnone : X = ∅ := Set.eq_empty_of_forall_notMem fun x hx => hfree' (hX x hx).2
    rw [Network.cleared, Network.cleared, if_neg hfree, if_neg hfree']
    exact hnone ▸ h

end Extended

end Network

namespace Run

theorem removeVoltageLevelLeft_eq_ok {vl : String} {s t : Session} (h : s.network.Coherent False)
    (hok : removeVoltageLevelLeft vl s = .ok () t) :
    t.network = s.network.cleared vl ∧
      (s.network.equipmentIn vl = [] → vl ∈ s.network.voltageLevels) := by
  simp only [removeVoltageLevelLeft, bind_eq_ok, network_eq_ok] at hok
  obtain ⟨_, _, ⟨rfl, rfl⟩, hok⟩ := hok
  have hsub : s.network.voltageLevels[vl]?.bind (·.substation) =
      (s.network.shell? vl).bind (·.substation) := by
    rw [shell?, Option.bind_map]
    rfl
  rw [hsub] at hok
  unfold cleared
  split at hok
  next hused =>
    have hused : s.network.equipmentIn vl ≠ [] := by simpa using hused
    obtain rfl := emit_eq_ok.mp hok
    rw [if_neg hused]
    exact ⟨rfl, fun he => absurd he hused⟩
  next hfree =>
    have hfree : s.network.equipmentIn vl = [] := by simpa using hfree
    simp only [bind_eq_ok, edit_eq_ok, emit_eq_ok] at hok
    obtain ⟨_, _, ⟨k, hk, rfl⟩, _, _, rfl, hok⟩ := hok
    obtain ⟨⟨hvl, -⟩, rfl⟩ := (Edit.removeVoltageLevel_eq_ok h).mp hk
    refine ⟨?_, fun _ => hvl⟩
    rw [if_pos hfree]
    cases hid : (s.network.shell? vl).bind (·.substation) with
    | none =>
      simp only [hid, pure_eq_ok, true_and] at hok
      rw [← hok]
      rfl
    | some id =>
      simp only [hid, bind_eq_ok, network_eq_ok] at hok
      obtain ⟨_, _, ⟨rfl, rfl⟩, hok⟩ := hok
      split at hok
      next hlast =>
        have hlast : (s.network.withoutLevel vl).voltageLevelsIn id = [] := by simpa using hlast
        simp only [bind_eq_ok, edit_eq_ok, emit_eq_ok] at hok
        obtain ⟨_, _, ⟨k, hk, rfl⟩, rfl⟩ := hok
        obtain ⟨-, rfl⟩ := (Edit.removeSubstation_eq_ok (h.withoutLevel hvl hfree)).mp hk
        dsimp only
        rw [if_pos hlast]
        rfl
      next hlast =>
        have hlast : (s.network.withoutLevel vl).voltageLevelsIn id ≠ [] := by simpa using hlast
        obtain ⟨-, rfl⟩ := pure_eq_ok.mp hok
        dsimp only
        rw [if_neg hlast]
        rfl

end Run

end Switchyard
