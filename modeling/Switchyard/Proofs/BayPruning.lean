import Switchyard.Proofs.LaidBays

namespace Switchyard

open Std Network

theorem Wiring.Sound.filter_eq_singleton {w : Wiring} (h : w.Sound) {e : Edge} {id : String}
    {p : Edge → Bool} (hin : e ∈ w.edgeList) (hl : e.link = .switch id) (hp : p e = true)
    (hall : ∀ x ∈ w.edgeList, p x = true → x = e) : w.edgeList.filter p = [e] := by
  have hsame : w.edgeList.filter p = List.replicate (w.edgeList.filter p).length e :=
    List.eq_replicate_of_mem fun x hx => hall x (List.mem_of_mem_filter hx) (List.of_mem_filter hx)
  have hids : (switchIds (w.edgeList.filter p)).Nodup :=
    (List.filter_sublist.filterMap _).nodup h.nodup_switchIds
  have hpos : 0 < (w.edgeList.filter p).length :=
    List.length_pos_of_mem (List.mem_filter.mpr ⟨hin, hp⟩)
  rw [hsame, switchIds, List.filterMap_replicate_of_some (Edge.switch?_eq_some_iff.mpr hl),
    List.nodup_replicate] at hids
  have hone : (w.edgeList.filter p).length = 1 := by omega
  rw [hsame, hone]
  rfl

variable {X : Set String} {S : Set Switch} {C : Set Connectable} {n m : Network} {vl : String}

namespace Network.Extended

theorem occupant_ne_rail (h : Extended X S C n m) (hvl : vl ∉ X) {w w' : Wiring}
    (hw : n.inside? vl = some (.nodeBreaker w)) (hw' : m.inside? vl = some (.nodeBreaker w'))
    {node : Node} (hnode : node ∉ w.places) : m.occupant w' node ≠ .rail := by
  obtain ⟨u, hu, hs, -, ha⟩ := h.toWired.of_wiring hvl hw
  rw [hw'] at hu
  cases hu
  unfold occupant
  cases hterminal : w'.terminals[node]? with
  | none => simp
  | some a =>
    have hm : node ∈ w'.terminals := mem_iff_exists_getElem?.mpr ⟨a, hterminal⟩
    rcases ha.mem_terminals_iff.mp hm with hm | ⟨a', c, hc, hid, hside⟩
    · exact absurd (hs.terminal_placed node hm) hnode
    · have heq := (ha.terminal_new node a' ⟨c, hc, hid, hside⟩).1
      rw [hterminal] at heq
      cases heq
      have hkept := h.keeps_new hc
      have hout : ¬m.busbarSections.contains a.connectable := by
        intro hb
        obtain ⟨b, hb⟩ := mem_iff_exists_getElem?.mp (ExtTreeMap.contains_iff_mem.mp hb)
        have hbus : m.Keeps c.id (.busbarSection b) := by
          rw [hid]
          exact hb
        cases h.coherent.keeps_unique hbus hkept
        cases h.free _ hc
      simp [hout]

/-- The edges at a node that the first network does not have are switches besides. -/
theorem switch_at_node (h : Extended X S C n m) (hvl : vl ∉ X) {w w' : Wiring}
    (hw : n.inside? vl = some (.nodeBreaker w)) (hw' : m.inside? vl = some (.nodeBreaker w'))
    {node : Node} (hnode : node ∉ w.places) {e : Edge} (he : e ∈ w'.edgeList)
    (ht : e.touches node = true) :
    ∃ s ∈ S, s.voltageLevel = vl ∧ s.Meets node ∧ e = s.edge := by
  obtain ⟨u, hu, hs, hs', ha⟩ := h.toWired.of_wiring hvl hw
  rw [hw'] at hu
  cases hu
  rcases (ha.mem_edgeList_iff hs hs').mp he with hold | ⟨s, hsS, rfl⟩
  · obtain ⟨k, hk⟩ := mem_values_iff.mp hold
    exact absurd (hs.placed_of_touches hk ht) hnode
  · exact ⟨s, hsS.1, hsS.2, ht, rfl⟩

/-- Switches besides that are told apart by nothing else are told apart by their ids. -/
theorem switch_eq_of_id (h : Extended X S C n m)
    (hS : ∀ s ∈ S, s.voltageLevel ∉ X ∧ ∃ w, n.inside? s.voltageLevel = some (.nodeBreaker w))
    {s x : Switch} (hs : s ∈ S) (hx : x ∈ S) (hid : s.id = x.id) : s = x := by
  obtain ⟨hvl, w, hw⟩ := hS s hs
  obtain ⟨hvl', w', hw'⟩ := hS x hx
  have hi := h.index_switch hs hvl hw
  rw [hid, h.index_switch hx hvl' hw'] at hi
  have hsame : x.voltageLevel = s.voltageLevel := by simpa using hi
  obtain ⟨u, -, -, -, ha⟩ := h.toWired.of_wiring hvl hw
  have hnew := (ha.switch_new s ⟨hs, rfl⟩).1
  rw [hid, (ha.switch_new x ⟨hx, hsame⟩).1] at hnew
  exact (Option.some.inj hnew).symm

theorem edge_mem (h : Extended X S C n m) (hvl : vl ∉ X) {w' : Wiring}
    (hw' : m.inside? vl = some (.nodeBreaker w')) {s : Switch} (hs : s ∈ S)
    (hsvl : s.voltageLevel = vl) : s.edge ∈ w'.edgeList := by
  obtain ⟨w, -, -, hs', ha⟩ := h.toWired.wiring_old hvl hw'
  obtain ⟨k, -, hk⟩ := hs'.edge_of_switch (ha.switch_new s ⟨hs, hsvl⟩).1
  exact mem_values_iff.mpr ⟨k, hk⟩

end Network.Extended

namespace LaidBay

variable {b : LaidBay} {rest : List LaidBay}

/-- At the two nodes of a bay there are only its own switches. -/
theorem mem_of_meets (hall : ∀ c ∈ b :: rest, c.Fits n) (hapart : ∀ c ∈ rest, b.Apart c.toBayPlan)
    (hn : n.Coherent False) {s : Switch} (hs : s ∈ laid (b :: rest))
    (hvl : s.voltageLevel = b.voltageLevel) {node : Node}
    (hnode : node = b.nodes.equipment ∨ node = b.nodes.fork) (hm : s.Meets node) :
    s ∈ b.switches := by
  obtain ⟨c, hc, hsc⟩ := hs
  rcases List.mem_cons.mp hc with rfl | hc
  · exact hsc
  have hsame : b.voltageLevel = c.voltageLevel := hvl.symm.trans (voltageLevel_of_mem hsc)
  obtain ⟨h1, h2, h3, h4⟩ := hapart c hc hsame
  obtain ⟨w, hw, hequipment, hfork⟩ := (hall b List.mem_cons_self).wired
  have hrail : ∀ r ∈ c.rails, node ≠ r.node := by
    rintro r hr rfl
    have hin := (hall c (List.mem_cons_of_mem b hc)).rails r hr
    have hplaced := (hn.sound _ w hw).placed_of_referenced (hn.referenced_rail (hsame ▸ hin) hw)
    rcases hnode with he | he
    · exact hequipment (he ▸ hplaced)
    · exact hfork (he ▸ hplaced)
  exfalso
  rcases Switch.meets_iff.mp hm with hm | hm
  · rcases node1_of_mem hsc with he | he <;> rcases hnode with hn | hn <;> simp_all
  · rcases List.mem_cons.mp hsc with rfl | hsc
    · have he := c.first_ends.2.2
      rcases hnode with hn | hn <;> simp_all
    · obtain ⟨-, -, r, hr, he⟩ := others_ends hsc
      exact hrail r hr (hm.symm.trans he)

section Edges

variable (h : Extended X (laid (b :: rest)) C n m) (hvl : b.voltageLevel ∉ X)
  (hall : ∀ c ∈ b :: rest, c.Fits n) (hapart : ∀ c ∈ rest, b.Apart c.toBayPlan) {w' : Wiring}
  (hw' : m.inside? b.voltageLevel = some (.nodeBreaker w'))

include h hall hw' in
theorem occupant_of_others {s : Switch} (hs : s ∈ b.others) : m.occupant w' s.node2 = .rail := by
  obtain ⟨-, -, r, hr, he⟩ := others_ends hs
  rw [he]
  exact h.coherent.occupant_rail (h.hasRail_iff.mpr ((hall b List.mem_cons_self).rails r hr)) hw'

include h hvl hall hapart hw'

theorem edge_of_touches {node : Node} (hnode : node = b.nodes.equipment ∨ node = b.nodes.fork)
    {e : Edge} (he : e ∈ w'.edgeList) (ht : e.touches node = true) :
    ∃ s ∈ b.switches, s.Meets node ∧ e = s.edge := by
  obtain ⟨w, hw, hequipment, hfork⟩ := (hall b List.mem_cons_self).wired
  have hout : node ∉ w.places := by
    rcases hnode with rfl | rfl
    · exact hequipment
    · exact hfork
  obtain ⟨s, hs, hsvl, hmeets, heq⟩ := h.switch_at_node hvl hw hw' hout he ht
  exact ⟨s, mem_of_meets hall hapart h.base hs hsvl hnode hmeets, hmeets, heq⟩

theorem edges_of_equipment :
    w'.edgeList.filter (·.touches b.nodes.equipment) = [b.first.edge] := by
  have hfits := hall b List.mem_cons_self
  obtain ⟨w, hw, hequipment, -⟩ := hfits.wired
  obtain ⟨hlevel, hnode1, -⟩ := b.first_ends
  have hin : b.first.edge ∈ w'.edgeList :=
    h.edge_mem hvl hw' ⟨b, List.mem_cons_self, List.mem_cons_self⟩ hlevel
  have hsound := h.coherent.sound _ _ hw'
  refine hsound.filter_eq_singleton hin rfl ?_ fun e he ht => ?_
  · simp [Edge.touches, Switch.edge, hnode1]
  · obtain ⟨s, hs, hmeets, rfl⟩ := edge_of_touches h hvl hall hapart hw' (Or.inl rfl) he ht
    rcases List.mem_cons.mp hs with rfl | hs
    · rfl
    · obtain ⟨-, h1, -⟩ := others_ends hs
      rcases Switch.meets_iff.mp hmeets with hx | hx
      · exact absurd (hx.symm.trans h1) hfits.distinct
      · have hclear := h.occupant_ne_rail hvl hw hw' hequipment
        exact absurd (hx ▸ occupant_of_others h hall hw' hs) hclear

theorem mem_edges_of_fork_iff {e : Edge} :
    e ∈ w'.edgeList.erase b.first.edge ∧ e.touches b.nodes.fork = true ↔
      ∃ s ∈ b.others, e = s.edge := by
  have hfits := hall b List.mem_cons_self
  obtain ⟨-, hnode1, -⟩ := b.first_ends
  have hstart := edges_of_equipment h hvl hall hapart hw'
  have hgone : b.first.edge ∉ w'.edgeList.erase b.first.edge := by
    have hfind : w'.edgeList.find? (·.touches b.nodes.equipment) = some b.first.edge := by
      rw [← List.head?_filter, hstart]
      rfl
    obtain ⟨hsplit, -⟩ := filter_of_find? hfind
    rw [hstart, List.cons.injEq] at hsplit
    intro hm
    have hnone := List.filter_eq_nil_iff.mp hsplit.2.symm _ hm
    simp [Edge.touches, Switch.edge, hnode1] at hnone
  constructor
  · rintro ⟨he, ht⟩
    obtain ⟨s, hs, -, rfl⟩ :=
      edge_of_touches h hvl hall hapart hw' (Or.inr rfl) (List.mem_of_mem_erase he) ht
    rcases List.mem_cons.mp hs with rfl | hs
    · exact absurd he hgone
    · exact ⟨s, hs, rfl⟩
  · rintro ⟨s, hs, rfl⟩
    have hmem := List.mem_cons_of_mem b.first hs
    obtain ⟨-, h1, -⟩ := others_ends hs
    have hne : s.edge ≠ b.first.edge := by
      intro he
      have hnodes : s.node1 = b.first.node1 := congrArg Edge.node1 he
      exact hfits.distinct (hnode1.symm.trans (hnodes.symm.trans h1))
    have hin : s.edge ∈ w'.edgeList :=
      h.edge_mem hvl hw' ⟨b, List.mem_cons_self, hmem⟩ (voltageLevel_of_mem hmem)
    exact ⟨(List.mem_erase_of_ne hne).mpr hin, by simp [Edge.touches, Switch.edge, h1]⟩

/-- A laid bay is a star around its equipment node. -/
theorem star :
    m.Star w' b.nodes.equipment b.nodes.fork b.first.edge
      {e | ∃ s ∈ b.others, e = s.edge} where
  ends := b.first_ends.2
  apart := (hall b List.mem_cons_self).distinct
  clear := by
    obtain ⟨w, hw, hequipment, hfork⟩ := (hall b List.mem_cons_self).wired
    exact ⟨h.occupant_ne_rail hvl hw hw' hequipment, h.occupant_ne_rail hvl hw hw' hfork⟩
  edges_start := edges_of_equipment h hvl hall hapart hw'
  edges_fork := fun _ => mem_edges_of_fork_iff h hvl hall hapart hw'
  others_ends := by
    rintro _ ⟨s, hs, rfl⟩
    exact ⟨(others_ends hs).2.1, occupant_of_others h hall hw' hs⟩

end Edges

end LaidBay

theorem laid_cons_sdiff {b : LaidBay} {rest : List LaidBay}
    (hown : ∀ x ∈ laid (b :: rest), ∀ y ∈ b.switches, x.edge = y.edge → x = y)
    (hapart : ∀ c ∈ rest, b.Apart c.toBayPlan) :
    laid (b :: rest) \ {x | ∃ y ∈ b.switches, x.edge = y.edge} = laid rest := by
  ext x
  constructor
  · rintro ⟨⟨c, hc, hx⟩, hout⟩
    rcases List.mem_cons.mp hc with rfl | hc
    · exact absurd ⟨x, hx, rfl⟩ hout
    · exact ⟨c, hc, hx⟩
  · rintro ⟨c, hc, hx⟩
    have hlaid : x ∈ laid (b :: rest) := ⟨c, List.mem_cons_of_mem b hc, hx⟩
    refine ⟨hlaid, ?_⟩
    rintro ⟨y, hy, he⟩
    cases hown x hlaid y hy he
    exact (hapart c hc).disjoint (LaidBay.unnamed_mem hy) (LaidBay.unnamed_mem hx)

namespace Run

variable {s t : Session}

/-- Cutting switches besides leaves the others. -/
theorem extended_cut (h : Extended X S C n s.network)
    (hS : ∀ x ∈ S, x.voltageLevel ∉ X ∧ ∃ w, n.inside? x.voltageLevel = some (.nodeBreaker w))
    (hheld : ∀ x ∈ S, ∀ node w, n.inside? x.voltageLevel = some (.nodeBreaker w) →
      x.Meets node → node ∈ w.places → w.Referenced node)
    {connectable : String} {es : List Edge} (hes : ∀ e ∈ es, ∃ x ∈ S, e = x.edge)
    (hnodup : (switchIds es).Nodup) (hok : cut connectable vl (es.map .remove) s = .ok () t) :
    Extended X (S \ {x | x.edge ∈ es}) C n t.network := by
  -- `S` loses a switch with each edge; those to come are still in it, as no id is cut twice.
  induction es generalizing S s with
  | nil =>
    cases hok
    simpa using h
  | cons e rest ih =>
    obtain ⟨⟨x, hx, rfl⟩, hrest⟩ := List.forall_mem_cons.mp hes
    have hids : switchIds (x.edge :: rest) = x.id :: switchIds rest := rfl
    obtain ⟨hnot, hrests⟩ := List.nodup_cons.mp (hids ▸ hnodup)
    obtain ⟨hvl, w, hw⟩ := hS x hx
    simp only [List.map_cons, cut, Switch.edge, bind_eq_ok, edit_eq_ok, emit_eq_ok] at hok
    obtain ⟨_, _, ⟨k, hk, rfl⟩, _, _, rfl, hrun⟩ := hok
    have hstep := h.removeSwitch hx hvl hw (fun node => hheld x hx node w hw) hk
    have hkept : ∀ e ∈ rest, ∃ y ∈ S \ {x}, e = y.edge := by
      intro e he
      obtain ⟨y, hy, rfl⟩ := hrest e he
      refine ⟨y, ⟨hy, fun hyx => hnot ?_⟩, rfl⟩
      rw [← Set.mem_singleton_iff.mp hyx]
      exact List.mem_filterMap.mpr ⟨y.edge, he, rfl⟩
    have hlast := ih hstep (fun y hy => hS y hy.1) (fun y hy => hheld y hy.1) hkept hrests hrun
    have hset : (S \ {x}) \ {y | y.edge ∈ rest} = S \ {y | y.edge ∈ x.edge :: rest} := by
      ext y
      simp only [Set.mem_sdiff, Set.mem_singleton_iff, Set.mem_ofPred_eq, List.mem_cons, not_or]
      constructor
      · rintro ⟨⟨hy, hne⟩, hout⟩
        refine ⟨hy, fun he => hne (h.switch_eq_of_id hS hy hx ?_), hout⟩
        have hl : Link.switch y.id = Link.switch x.id := congrArg Edge.link he
        exact Link.switch.inj hl
      · rintro ⟨hy, hne, hout⟩
        exact ⟨⟨hy, fun he => hne (he ▸ rfl)⟩, hout⟩
    rw [← hset]
    exact hlast

/-- Pruning around the equipment node of a bay removes that bay and no other. -/
theorem extended_pruneBay {b : LaidBay} {rest : List LaidBay}
    (h : Extended X (laid (b :: rest)) C n s.network)
    (hall : ∀ c ∈ b :: rest, c.voltageLevel ∉ X ∧ c.Fits n)
    (hapart : ∀ c ∈ rest, b.Apart c.toBayPlan) {connectable : String}
    (hok : pruneBay connectable b.voltageLevel b.nodes.equipment s = .ok () t) :
    Extended X (laid rest) C n t.network := by
  have hfits : ∀ c ∈ b :: rest, c.Fits n := fun c hc => (hall c hc).2
  have hvl := (hall b List.mem_cons_self).1
  have hS : ∀ x ∈ laid (b :: rest), x.voltageLevel ∉ X ∧
      ∃ w, n.inside? x.voltageLevel = some (.nodeBreaker w) := by
    rintro x ⟨c, hc, hx⟩
    obtain ⟨hout, hfit⟩ := hall c hc
    obtain ⟨w, hw, -⟩ := hfit.wired
    rw [LaidBay.voltageLevel_of_mem hx]
    exact ⟨hout, w, hw⟩
  have hheld : ∀ x ∈ laid (b :: rest), ∀ node w,
      n.inside? x.voltageLevel = some (.nodeBreaker w) → x.Meets node → node ∈ w.places →
        w.Referenced node := by
    rintro x ⟨c, hc, hx⟩ node w hw hmeets hp
    exact LaidBay.referenced_of_meets h.base (hfits c hc) hx hmeets hw hp
  simp only [pruneBay, bind_eq_ok, network_eq_ok, lookUp_eq_ok] at hok
  obtain ⟨_, _, ⟨rfl, rfl⟩, w', _, ⟨hw', rfl⟩, hok⟩ := hok
  have hw' := wiring_eq_ok_iff.mp hw'
  have hstar := LaidBay.star h hvl hfits hapart hw'
  obtain ⟨es, hprune, hes⟩ := hstar.prune
  have hmem : ∀ e, e ∈ es ↔ ∃ x ∈ b.switches, e = x.edge := by
    intro e
    rw [hes]
    simp only [LaidBay.switches, List.mem_cons, exists_eq_or_imp]
    rfl
  have hnodup : (switchIds es).Nodup := by
    obtain ⟨hnodup, -⟩ := (h.coherent.sound _ _ hw').prune_spec s.network b.nodes.equipment
      b.nodes.equipment
    have hremoved : removedEdges (es.map .remove) = es := by
      simp [removedEdges, List.filterMap_map, Cut.edge?]
    rwa [hprune, hremoved] at hnodup
  rw [hprune] at hok
  have hlaid : ∀ y ∈ b.switches, y ∈ laid (b :: rest) := fun y hy => ⟨b, List.mem_cons_self, hy⟩
  -- The walk found the edges of the bay, and no other bay has one of them.
  have hcut := extended_cut h hS hheld (fun e he => ?_) hnodup hok
  · simp only [hmem] at hcut
    rwa [laid_cons_sdiff (fun x hx y hy he => ?_) hapart] at hcut
    have hl : Link.switch x.id = Link.switch y.id := congrArg Edge.link he
    exact h.switch_eq_of_id hS hx (hlaid y hy) (Link.switch.inj hl)
  · obtain ⟨x, hx, rfl⟩ := (hmem e).mp he
    exact ⟨x, hlaid x hx, rfl⟩

end Run

end Switchyard
