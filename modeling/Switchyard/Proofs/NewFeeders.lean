import Switchyard.Proofs.Additions

namespace Switchyard

open Std Network

variable {S : Set Switch} {C : Set Connectable} {n m : Network} {vl id : String} {s : Switch}
  {bays : List LaidBay} {b : LaidBay} {c : Connectable}

namespace Network

/-- The busbar sections that a bay at `t` leads to: those of its voltage level with its
section index, and `t` alone if it has no position. -/
def Alongside (n : Network) (t b : BusbarSection) : Prop :=
  n.busbarSections[b.id]? = some b ∧
    match t.position with
    | some p => b.voltageLevel = t.voltageLevel ∧
        ∃ q, b.position = some q ∧ q.sectionIndex = p.sectionIndex
    | none => b = t

theorem Coherent.mem_parallelSections_iff (h : n.Coherent False) {i : Int32} {b : BusbarSection} :
    b ∈ n.parallelSections vl i ↔ n.busbarSections[b.id]? = some b ∧ b.voltageLevel = vl ∧
      ∃ q, b.position = some q ∧ q.sectionIndex = i := by
  have hplaced : b ∈ n.parallelSections vl i ↔
      ∃ q, (b, q) ∈ n.placedSections vl ∧ q.sectionIndex = i := by
    simp only [parallelSections, List.mem_filter, mem_placedSections, Option.any_eq_true,
      beq_iff_eq]
    grind
  simp only [hplaced, h.mem_placedSections_iff]
  grind

theorem Coherent.mem_bayRails_iff (h : n.Coherent False) {t : BusbarSection}
    (ht : n.busbarSections[id]? = some t) {r : Rail} :
    r ∈ n.bayRails t.voltageLevel t.rail ↔ ∃ b, n.Alongside t b ∧ b.rail = r := by
  obtain rfl : t.id = id := h.connectable_id id (.busbarSection t) ht
  have hindex : n.sectionIndex? t.rail.id = t.position.map (·.sectionIndex) := by
    simp only [sectionIndex?, BusbarSection.rail, ht, Option.bind_some]
  simp only [bayRails, hindex, Alongside]
  cases t.position with
  | none =>
    simp only [Option.map_none, List.mem_singleton]
    constructor
    · rintro rfl
      exact ⟨t, ⟨ht, rfl⟩, rfl⟩
    · rintro ⟨b, ⟨-, rfl⟩, rfl⟩
      rfl
  | some p => simp only [Option.map_some, List.mem_map, h.mem_parallelSections_iff]

theorem Coherent.switch?_eq_some_iff (h : n.Coherent False) :
    n.switch? id = some s ↔ n.Has (.switch s) ∧ s.id = id := by
  have hfound : n.switch? id = some s ↔ n.find? id = some (.switch s) := by
    unfold switch?
    split <;> simp_all
  rw [hfound, h.find?_eq_some_iff, Object.id]

theorem Coherent.busSwitch?_eq_some_iff (h : n.Coherent False) {s : BusSwitch} :
    n.busSwitch? id = some s ↔ n.Has (.busSwitch s) ∧ s.id = id := by
  have hfound : n.busSwitch? id = some s ↔ n.find? id = some (.busSwitch s) := by
    unfold busSwitch?
    split <;> simp_all
  rw [hfound, h.find?_eq_some_iff, Object.id]

namespace Extended

theorem layout_iff (h : Extended ∅ S C n m) {l : BusLayout} :
    m.inside? vl = some (.busBreaker l) ↔ n.inside? vl = some (.busBreaker l) := by
  constructor
  · intro hl
    have hm : vl ∈ m.voltageLevels := by rw [← inside?_isSome_iff, hl, Option.isSome_some]
    rw [← shell?_isSome_iff, h.shell vl, shell?_isSome_iff] at hm
    obtain ⟨t, ht⟩ := Option.isSome_iff_exists.mp (inside?_isSome_iff.mpr hm)
    obtain ⟨u, hu, ha⟩ := h.inside vl (Set.notMem_empty vl) t ht
    rw [hl] at hu
    cases hu
    cases ha
    exact ht
  · intro hl
    obtain ⟨u, hu, ha⟩ := h.inside vl (Set.notMem_empty vl) _ hl
    cases ha
    exact hu

theorem switch?_eq_some_iff (h : Extended ∅ S C n m)
    (hS : ∀ x ∈ S, ∃ w, n.inside? x.voltageLevel = some (.nodeBreaker w)) :
    m.switch? id = some s ↔ n.switch? id = some s ∨ s ∈ S ∧ s.id = id := by
  rw [h.coherent.switch?_eq_some_iff, h.base.switch?_eq_some_iff, ← or_and_right]
  refine and_congr_left fun _ => ⟨?_, ?_⟩
  · rintro ⟨w', hw', hs⟩
    obtain ⟨w, hw, -, -, ha⟩ := h.toWired.wiring_old (Set.notMem_empty _) hw'
    exact (ha.getElem?_switches.mp hs).imp (fun hold => ⟨w, hw, hold⟩) fun hnew => hnew.1.1
  · rintro (⟨w, hw, hs⟩ | hs)
    · obtain ⟨w', hw', -, -, ha⟩ := h.toWired.of_wiring (Set.notMem_empty _) hw
      exact ⟨w', hw', ha.getElem?_switches.mpr (Or.inl hs)⟩
    · obtain ⟨w, hw⟩ := hS s hs
      obtain ⟨w', hw', -, -, ha⟩ := h.toWired.of_wiring (Set.notMem_empty _) hw
      exact ⟨w', hw', ha.getElem?_switches.mpr (Or.inr ⟨⟨hs, rfl⟩, rfl⟩)⟩

theorem switch?_new (h : Extended ∅ S C n m)
    (hS : ∀ x ∈ S, ∃ w, n.inside? x.voltageLevel = some (.nodeBreaker w)) (hs : s ∈ S) :
    n.switch? s.id = none := by
  rw [Option.eq_none_iff_forall_ne_some]
  intro x hx
  have hnew := (h.switch?_eq_some_iff hS).mpr (Or.inr ⟨hs, rfl⟩)
  rw [(h.switch?_eq_some_iff hS).mpr (Or.inl hx)] at hnew
  cases hnew
  obtain ⟨⟨w, hw, hold⟩, -⟩ := h.base.switch?_eq_some_iff.mp hx
  obtain ⟨w', -, -, -, ha⟩ := h.toWired.of_wiring (Set.notMem_empty _) hw
  exact (ha.switch_new s ⟨hs, rfl⟩).2 (mem_iff_exists_getElem?.mpr ⟨s, hold⟩)

theorem connectable?_new (h : Extended ∅ S C n m) (hc : c ∈ C) : n.connectable? c.id = none := by
  rw [Option.eq_none_iff_forall_ne_some]
  exact fun d hd => h.fresh c hc d (keeps_of_connectable? hd)

theorem busSwitch?_eq (h : Extended ∅ S C n m) : m.busSwitch? id = n.busSwitch? id := by
  apply Option.ext
  intro s
  rw [h.coherent.busSwitch?_eq_some_iff, h.base.busSwitch?_eq_some_iff]
  simp only [Has, h.layout_iff]

end Extended

end Network

theorem laid_perm {bays bays' : List LaidBay} (h : bays.Perm bays') : laid bays = laid bays' := by
  ext s
  simp only [laid, Set.mem_ofPred_eq, h.mem_iff]

/-- The switches of a bay differ in more than their ids. -/
theorem LaidBay.nodup_switches (hn : n.Coherent False) (hb : b.Fits n) : b.switches.Nodup := by
  refine List.Nodup.of_map (·.unnamed) ?_
  rw [b.switches_unnamed, BayPlan.switches, List.nodup_cons]
  constructor
  · simp [BayPlan.breaker, BayPlan.disconnector, baySwitch]
  · refine hb.nodup.map_on fun r hr r' hr' he => ?_
    exact hn.rail_eq_of_node (hb.rails r hr) (hb.rails r' hr') (congrArg Switch.node2 he)

theorem Wiring.Sound.nodup_filter {w : Wiring} (h : w.Sound) {p : Edge → Bool}
    (hlink : ∀ e ∈ w.edgeList, p e = true → ∃ id, e.link = .switch id) :
    (w.edgeList.filter p).Nodup := by
  have hids : (switchIds (w.edgeList.filter p)).Nodup :=
    (List.filter_sublist.filterMap _).nodup h.nodup_switchIds
  refine (List.pairwise_filterMap.mp hids).imp_of_mem fun {e e'} he _ hne heq => ?_
  obtain ⟨id, hid⟩ := hlink e (List.mem_of_mem_filter he) (List.of_mem_filter he)
  have hswitch := Edge.switch?_eq_some_iff.mpr hid
  exact hne id hswitch id (heq ▸ hswitch) rfl

theorem LaidBay.edges_of_fork {w : Wiring} {rest : List LaidBay}
    (h : Extended ∅ (laid (b :: rest)) C n m) (hfits : ∀ x ∈ b :: rest, x.Fits n)
    (hapart : ∀ x ∈ rest, b.Apart x.toBayPlan)
    (hw : m.inside? b.voltageLevel = some (.nodeBreaker w)) :
    (w.edgesAt b.nodes.fork).Perm (b.switches.map (·.edge)) := by
  have hvl := Set.notMem_empty b.voltageLevel
  have hlaid : ∀ x ∈ b.switches, x ∈ laid (b :: rest) := fun x hx => ⟨b, List.mem_cons_self, hx⟩
  have hwired : ∀ x ∈ laid (b :: rest), x.voltageLevel ∉ (∅ : Set String) ∧
      ∃ w, n.inside? x.voltageLevel = some (.nodeBreaker w) := by
    rintro x ⟨y, hy, hx⟩
    obtain ⟨u, hu, -⟩ := (hfits y hy).wired
    exact ⟨Set.notMem_empty _, u, voltageLevel_of_mem hx ▸ hu⟩
  have hown : ∀ e ∈ w.edgeList, e.touches b.nodes.fork = true → ∃ x ∈ b.switches, e = x.edge := by
    intro e he ht
    obtain ⟨x, hx, -, heq⟩ := edge_of_touches h hvl hfits hapart hw (Or.inr rfl) he ht
    exact ⟨x, hx, heq⟩
  refine (List.perm_ext_iff_of_nodup ?_ ?_).mpr fun e => ?_
  · refine (h.coherent.sound _ _ hw).nodup_filter fun e he ht => ?_
    obtain ⟨x, -, rfl⟩ := hown e he ht
    exact ⟨x.id, rfl⟩
  · refine (nodup_switches h.base (hfits b List.mem_cons_self)).map_on fun x hx y hy he => ?_
    have hlink : Link.switch x.id = Link.switch y.id := congrArg Edge.link he
    exact h.switch_eq_of_id hwired (hlaid x hx) (hlaid y hy) (Link.switch.inj hlink)
  · rw [Wiring.edgesAt, List.mem_filter, List.mem_map]
    constructor
    · rintro ⟨he, ht⟩
      obtain ⟨x, hx, rfl⟩ := hown e he ht
      exact ⟨x, hx, rfl⟩
    · rintro ⟨x, hx, rfl⟩
      refine ⟨h.edge_mem hvl hw (hlaid x hx) (voltageLevel_of_mem hx), ?_⟩
      rcases List.mem_cons.mp hx with rfl | hx
      · simp [Edge.touches, Switch.edge, b.first_ends.2.2]
      · simp [Edge.touches, Switch.edge, (others_ends hx).2.1]

/-- The bay leads from a new node over a new fork to busbar section `t` and those
alongside, and only its own switches are at its two nodes. -/
structure LaidBay.Leads (b : LaidBay) (n m : Network) (t : BusbarSection) : Prop where
  voltageLevel_eq : b.voltageLevel = t.voltageLevel
  target_eq : b.target = t.id
  rail_iff : ∀ r, r ∈ b.rails ↔ ∃ x, n.Alongside t x ∧ x.rail = r
  nodup_rails : b.rails.Nodup
  nodes_ne : b.nodes.equipment ≠ b.nodes.fork
  nodes_new : ∃ w, n.inside? t.voltageLevel = some (.nodeBreaker w) ∧
    b.nodes.equipment ∉ w.nodes ∧ b.nodes.fork ∉ w.nodes
  edges_eq : ∃ w, m.inside? t.voltageLevel = some (.nodeBreaker w) ∧
    w.edgesAt b.nodes.equipment = [b.first.edge] ∧
    (w.edgesAt b.nodes.fork).Perm (b.switches.map (·.edge))

namespace FeederBays

variable {d : FeederBays}

/-- The second network is the first one with new equipment. Its sides at busbar
sections have a bay each, those at buses have none, and no other switch is new. -/
structure Installs (d : FeederBays) (n m : Network) (c : Connectable) (bays : List LaidBay) :
    Prop where
  new : n.connectable? c.id = none
  found : m.connectable? c.id = some c
  sides_eq : c.terminals.map (·.1) = d.draft.sides
  length_eq : d.bays.length = d.draft.sides.length
  equipped : Equipped n c (d.draft.sides.zip d.bays) bays
  leads : ∀ b ∈ bays, ∃ t, n.busbarSections[b.target]? = some t ∧ b.Leads n m t
  apart : bays.Pairwise fun b b' => b.Apart b'.toBayPlan
  switch_iff : ∀ id s, m.switch? id = some s ↔ n.switch? id = some s ∨ s ∈ laid bays ∧ s.id = id
  switch_new : ∀ s ∈ laid bays, n.switch? s.id = none
  busSwitch_eq : ∀ id, m.busSwitch? id = n.busSwitch? id

theorem Equipped.plan_of_mem {given : List (Side × FeederBay)} (h : Equipped n c given bays)
    (hb : b ∈ bays) : ∃ (id : String) (t : BusbarSection), n.busbarSections[id]? = some t ∧
      b.toBayPlan = n.bayPlan t.voltageLevel t.rail b.nodes := by
  induction h with
  | nil => cases hb
  | bus _ _ _ ih => exact ih hb
  | busbarSection htarget hplan _ _ ih =>
    rcases List.mem_cons.mp hb with rfl | hb
    · exact ⟨_, _, htarget, hplan⟩
    · exact ih hb

theorem Furnishes.wired (h : d.Furnishes n m c bays) (hroom : d.HasRoom n) :
    ∀ x ∈ laid bays, ∃ w, n.inside? x.voltageLevel = some (.nodeBreaker w) := by
  rintro x ⟨b, hb, hx⟩
  obtain ⟨w, hw, -⟩ := ((h.serves hroom).fits b hb).wired
  exact ⟨w, LaidBay.voltageLevel_of_mem hx ▸ hw⟩

/-- Only its own switches are at the two nodes of a bay. -/
theorem Furnishes.edges_of_mem (h : d.Furnishes n m c bays) (hroom : d.HasRoom n) (hb : b ∈ bays)
    {w : Wiring} (hw : m.inside? b.voltageLevel = some (.nodeBreaker w)) :
    w.edgesAt b.nodes.equipment = [b.first.edge] ∧
      (w.edgesAt b.nodes.fork).Perm (b.switches.map (·.edge)) := by
  -- The bay comes first in some order of the bays.
  obtain ⟨before, after, rfl⟩ := List.append_of_mem hb
  have hperm : (before ++ b :: after).Perm (b :: (before ++ after)) := List.perm_middle
  have hextended := laid_perm hperm ▸ h.extended
  have hfits : ∀ x ∈ b :: (before ++ after), x.Fits n := fun x hx =>
    (h.serves hroom).fits x (hperm.mem_iff.mpr hx)
  have hapart : ∀ x ∈ before ++ after, b.Apart x.toBayPlan :=
    (List.pairwise_cons.mp ((hperm.pairwise_iff fun hxy => hxy.symm).mp (h.serves hroom).apart)).1
  exact ⟨LaidBay.edges_of_equipment hextended (Set.notMem_empty _) hfits hapart hw,
    LaidBay.edges_of_fork hextended hfits hapart hw⟩

/-- Equipment is installed as it was drawn up, if there is room for its bays. -/
theorem Furnishes.installs (h : d.Furnishes n m c bays) (hroom : d.HasRoom n)
    (hlen : d.bays.length = d.draft.sides.length) : d.Installs n m c bays where
  new := h.extended.connectable?_new rfl
  found := h.extended.coherent.connectable?_eq_some_iff.mpr (h.extended.keeps_new rfl)
  sides_eq := h.sides_eq
  length_eq := hlen
  equipped := h.equipped
  leads := by
    intro b hb
    obtain ⟨id, t, ht, hplan⟩ := h.equipped.plan_of_mem hb
    have hfits := (h.serves hroom).fits b hb
    obtain ⟨w, hw, hequipment, hfork⟩ := hfits.wired
    obtain ⟨w', hw', -⟩ := h.extended.toWired.of_wiring (Set.notMem_empty _) hw
    have hvl : b.voltageLevel = t.voltageLevel := congrArg BayPlan.voltageLevel hplan
    have htarget : b.target = t.id := congrArg BayPlan.target hplan
    have hrails : b.rails = n.bayRails t.voltageLevel t.rail := congrArg BayPlan.rails hplan
    have hid : t.id = id := h.extended.base.connectable_id id (.busbarSection t) ht
    refine ⟨t, htarget ▸ hid ▸ ht, hvl, htarget, fun r => ?_, hfits.nodup, hfits.distinct,
      ⟨w, hvl ▸ hw, ?_⟩, ⟨w', hvl ▸ hw', h.edges_of_mem hroom hb hw'⟩⟩
    · rw [hrails, h.extended.base.mem_bayRails_iff ht]
    · exact ⟨fun hm => hequipment (Wiring.mem_nodes.mp hm),
        fun hm => hfork (Wiring.mem_nodes.mp hm)⟩
  apart := (h.serves hroom).apart
  switch_iff := fun _ _ => h.extended.switch?_eq_some_iff (h.wired hroom)
  switch_new := fun _ hs => h.extended.switch?_new (h.wired hroom) hs
  busSwitch_eq := fun _ => h.extended.busSwitch?_eq

end FeederBays

namespace Modification

end Modification

end Switchyard
