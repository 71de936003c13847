import Switchyard.Proofs.LaidBays

namespace Switchyard

open Std Network

/-- The busbar sections that a bay at a rail connects to. -/
def Network.bayRails (n : Network) (vl : String) (rail : Rail) : List Rail :=
  match n.sectionIndex? rail.id with
  | some s => (n.parallelSections vl s).map (·.rail)
  | none => [rail]

/-- The bay at a rail on the nodes given. -/
def Network.bayPlan (n : Network) (vl : String) (rail : Rail) (nodes : BayNodes) : BayPlan :=
  ⟨vl, nodes, rail.id, n.bayRails vl rail⟩

variable {X : Set String} {S : Set Switch} {C : Set Connectable} {n m : Network} {vl : String}
  {rail : Rail} {w : Wiring}

namespace Network

theorem Coherent.hasRail (h : n.Coherent False) {b : BusbarSection} {id : String}
    (hb : n.busbarSections[id]? = some b) : n.HasRail b.voltageLevel b.rail := by
  have hid : b.id = id := h.connectable_id id (.busbarSection b) hb
  subst hid
  exact ⟨b, hb, rfl, rfl⟩

theorem mem_placedSections {b : BusbarSection} {p : BusbarPosition} :
    (b, p) ∈ n.placedSections vl ↔ b ∈ n.busbarSectionsIn vl ∧ b.position = some p := by
  simp only [placedSections, List.mem_filterMap, Option.map_eq_some_iff, Prod.mk.injEq]
  constructor
  · rintro ⟨c, hc, q, hq, rfl, rfl⟩
    exact ⟨hc, hq⟩
  · rintro ⟨hb, hp⟩
    exact ⟨b, hb, p, hp, rfl, rfl⟩

theorem Coherent.mem_placedSections_iff (h : n.Coherent False) {b : BusbarSection}
    {p : BusbarPosition} :
    (b, p) ∈ n.placedSections vl ↔
      n.busbarSections[b.id]? = some b ∧ b.voltageLevel = vl ∧ b.position = some p := by
  rw [mem_placedSections, ← and_assoc]
  refine and_congr_left fun _ => ?_
  simp only [busbarSectionsIn, List.mem_filter, beq_iff_eq]
  refine and_congr_left fun _ => mem_values_iff.trans ⟨?_, fun hb => ⟨_, hb⟩⟩
  rintro ⟨x, hx⟩
  obtain rfl : b.id = x := h.connectable_id x (.busbarSection b) hx
  exact hx

theorem Coherent.section_of_terminal (h : n.Coherent False)
    (hw : n.inside? vl = some (.nodeBreaker w)) {node : Node} {a : Attachment} {b : BusbarSection}
    (ha : w.terminals[node]? = some a) (hb : n.busbarSections[a.connectable]? = some b) :
    b.voltageLevel = vl ∧ b.node = node := by
  obtain ⟨c, hc, hside⟩ := (h.holdsAt_iff vl node a).mp ⟨w, hw, ha⟩
  cases h.keeps_unique hc (d := .busbarSection b) hb
  have hside := congrArg Prod.snd (List.mem_singleton.mp hside)
  obtain ⟨hvl, hnode⟩ : vl = b.voltageLevel ∧ node = b.node := by
    simpa [BusbarSection.terminal, Terminal.atNode] using hside
  exact ⟨hvl.symm, hnode.symm⟩

/-- A node that is told to hold a busbar section is the node of one. -/
theorem Coherent.hasRail_of_occupant (h : n.Coherent False)
    (hw : n.inside? vl = some (.nodeBreaker w)) {node : Node} (hr : n.occupant w node = .rail) :
    ∃ rail, n.HasRail vl rail ∧ rail.node = node := by
  unfold occupant at hr
  cases hterminal : w.terminals[node]? with
  | none =>
    rw [hterminal] at hr
    cases hr
  | some a =>
    have hin : n.busbarSections.contains a.connectable := by
      by_contra hout
      simp [hterminal, hout] at hr
    obtain ⟨b, hb⟩ := mem_iff_exists_getElem?.mp (ExtTreeMap.contains_iff_mem.mp hin)
    obtain ⟨rfl, rfl⟩ := h.section_of_terminal hw hterminal hb
    exact ⟨b.rail, h.hasRail hb, rfl⟩

theorem HasRail.wiring (hr : n.HasRail vl rail) (h : n.Coherent False) :
    ∃ w, n.inside? vl = some (.nodeBreaker w) := by
  obtain ⟨w, hw, -⟩ := h.holds_rail hr
  exact ⟨w, hw⟩

theorem Coherent.rail_eq_of_node (h : n.Coherent False) {r r' : Rail} (hr : n.HasRail vl r)
    (hr' : n.HasRail vl r') (hnode : r.node = r'.node) : r = r' := by
  obtain ⟨w, hw, ha⟩ := h.holds_rail hr
  obtain ⟨w', hw', ha'⟩ := h.holds_rail hr'
  rw [hw] at hw'
  cases hw'
  rw [hnode, ha'] at ha
  have hid : r'.id = r.id := congrArg Attachment.connectable (Option.some.inj ha)
  cases r
  cases r'
  simp_all

theorem Coherent.hasRail_of_parallel (h : n.Coherent False) {b : BusbarSection} {i : Int32}
    (hb : b ∈ n.parallelSections vl i) : n.HasRail vl b.rail := by
  obtain ⟨hb, hvl⟩ := List.mem_filter.mp (List.mem_filter.mp hb).1
  obtain ⟨id, hb⟩ := mem_values_iff.mp hb
  have hvl : b.voltageLevel = vl := by simpa using hvl
  exact hvl ▸ h.hasRail hb

theorem Coherent.mem_bayRails (h : n.Coherent False) (hr : n.HasRail vl rail) {r : Rail}
    (hin : r ∈ n.bayRails vl rail) : n.HasRail vl r := by
  unfold bayRails at hin
  split at hin
  · obtain ⟨b, hb, rfl⟩ := List.mem_map.mp hin
    exact h.hasRail_of_parallel hb
  · cases List.mem_singleton.mp hin
    exact hr

theorem Coherent.nodup_parallelSections (h : n.Coherent False) (vl : String) (i : Int32) :
    ((n.parallelSections vl i).map (·.rail)).Nodup := by
  have hvalues : n.busbarSections.values.Nodup :=
    nodup_values (·.id) fun id b hb => h.connectable_id id (.busbarSection b) hb
  refine List.Nodup.map_on ?_ ((hvalues.filter _).filter _)
  intro b hb c hc he
  obtain ⟨x, hb⟩ := mem_values_iff.mp (List.mem_of_mem_filter (List.mem_of_mem_filter hb))
  obtain ⟨y, hc⟩ := mem_values_iff.mp (List.mem_of_mem_filter (List.mem_of_mem_filter hc))
  have hx : b.id = x := h.connectable_id x (.busbarSection b) hb
  have hy : c.id = y := h.connectable_id y (.busbarSection c) hc
  have hid : b.id = c.id := congrArg Rail.id he
  rw [← hx, hid, hy, hc] at hb
  exact (Option.some.inj hb).symm

theorem Coherent.nodup_bayRails (h : n.Coherent False) : (n.bayRails vl rail).Nodup := by
  unfold bayRails
  split
  · exact h.nodup_parallelSections vl _
  · exact List.nodup_singleton _

/-- The rails of a bay depend on the busbar sections of its voltage level only. -/
theorem HasRail.bayRails_congr (hr : n.HasRail vl rail)
    (hsame : ∀ (id : String) (b : BusbarSection), b.voltageLevel = vl →
      (m.busbarSections[id]? = some b ↔ n.busbarSections[id]? = some b)) :
    m.bayRails vl rail = n.bayRails vl rail := by
  obtain ⟨b, hb, hvl, -⟩ := hr
  have hindex : m.sectionIndex? rail.id = n.sectionIndex? rail.id := by
    rw [sectionIndex?, sectionIndex?, hb, (hsame _ b hvl).mpr hb]
  have hin : m.busbarSectionsIn vl = n.busbarSectionsIn vl :=
    filter_values_congr fun id b hb => hsame id b (by simpa using hb)
  simp only [bayRails, hindex, parallelSections, hin]

namespace Extended

theorem bayRails_eq (h : Extended X S C n m) : m.bayRails vl rail = n.bayRails vl rail := by
  simp only [bayRails, sectionIndex?, parallelSections, busbarSectionsIn, h.busbarSections_eq]

theorem unplaced (h : Extended X S C n m) (hvl : vl ∉ X) {node : Node} (hnew : m.Unplaced vl node) :
    n.Unplaced vl node := by
  intro w hw hm
  obtain ⟨w', hw', -, -, ha⟩ := h.toWired.of_wiring hvl hw
  exact hnew w' hw' ((ha.place_iff node).mpr (Or.inl hm))

/-- Of the room that there was, new nodes take up what is below them. -/
theorem room (h : Extended X S C n m) (hvl : vl ∉ X) {count more : Nat}
    (hroom : n.Room vl (count + more))
    (hnew : ∀ w, n.inside? vl = some (.nodeBreaker w) → ∀ node,
      Wiring.Occupied (switchesAt S vl) (terminalsAt (attachments C) vl) node →
        node.toNat < w.ceiling + count) : m.Room vl more := by
  intro w' hw'
  obtain ⟨w, hw, -, -, ha⟩ := h.toWired.wiring_old hvl hw'
  have hceiling : w'.ceiling ≤ w.ceiling + count := by
    refine Wiring.ceiling_le_iff.mpr fun node hnode => ?_
    rcases (ha.place_iff node).mp (Wiring.mem_nodes.mp hnode) with hp | ho
    · exact Nat.lt_add_right _ (Wiring.toNat_lt_ceiling (Wiring.mem_nodes.mpr hp))
    · exact hnew w hw node ho
  have hsum : w.ceiling + (count + more) ≤ UInt32.size := hroom w hw
  rw [Wiring.Room]
  omega

theorem room_base (h : Extended X S C n m) (hvl : vl ∉ X) {count : Nat} (hroom : m.Room vl count) :
    n.Room vl count := by
  intro w hw
  obtain ⟨w', hw', -, -, ha⟩ := h.toWired.of_wiring hvl hw
  exact (hroom w' hw').of_places fun node hnode => Or.inl ((ha.place_iff node).mpr (Or.inl hnode))

/-- Connectables at the same nodes leave the same room. -/
theorem room_of_terminals {D : Set Connectable} {k : Network} (h : Extended X ∅ C n m)
    (h' : Extended X ∅ D n k) (hvl : vl ∉ X)
    (hD : ∀ c ∈ D, ∀ side node, (side, .atNode vl node) ∈ c.terminals →
      ∃ c ∈ C, ∃ side, (side, .atNode vl node) ∈ c.terminals)
    {count : Nat} (hroom : m.Room vl count) : k.Room vl count := by
  intro w' hw'
  obtain ⟨w, hw, -, -, ha'⟩ := h'.toWired.wiring_old hvl hw'
  obtain ⟨u, hu, -, -, ha⟩ := h.toWired.of_wiring hvl hw
  refine (hroom u hu).of_places fun node hnode => Or.inl ((ha.place_iff node).mpr ?_)
  refine ((ha'.place_iff node).mp hnode).imp_right fun ho => ?_
  obtain ⟨a, c, hc, -, hin⟩ := ho.resolve_left (by simp [switchesAt])
  obtain ⟨d, hd, side, hat⟩ := hD c hc a.side node hin
  exact Or.inr ⟨⟨d.id, side⟩, d, hd, rfl, hat⟩

theorem nextNode_eq (h : Extended X ∅ ∅ n m) (hvl : vl ∉ X) {w' : Wiring}
    (hw : n.inside? vl = some (.nodeBreaker w)) (hw' : m.inside? vl = some (.nodeBreaker w')) :
    w'.nextNode = w.nextNode := by
  obtain ⟨u, hu, -, -, ha⟩ := h.toWired.of_wiring hvl hw
  rw [hw'] at hu
  cases hu
  have hrefl : w.Augmented ∅ (terminalsAt (attachments ∅) vl) w := by
    rw [attachments_empty]
    exact .refl w
  have hnodes : w'.nodes = w.nodes := ha.nodes_eq hrefl fun node => by simp [switchesAt]
  rw [Wiring.nextNode, hnodes, Wiring.nextNode]

end Extended

theorem Coherent.railed_bayPlan (h : n.Coherent False) (hr : n.HasRail vl rail)
    (nodes : BayNodes) : (n.bayPlan vl rail nodes).Railed n :=
  ⟨fun _ hin => h.mem_bayRails hr hin, h.nodup_bayRails⟩

/-- A bay at a rail has its own nodes if they are not in use. -/
theorem Coherent.fits_bayPlan (h : n.Coherent False) (hr : n.HasRail vl rail) {nodes : BayNodes}
    (hne : nodes.equipment ≠ nodes.fork) (hequipment : n.Unplaced vl nodes.equipment)
    (hfork : n.Unplaced vl nodes.fork) : (n.bayPlan vl rail nodes).Fits n := by
  obtain ⟨w, hw⟩ := hr.wiring h
  exact ⟨h.railed_bayPlan hr nodes, ⟨w, hw, hequipment w hw, hfork w hw⟩, hne⟩

end Network

namespace Run

variable {s t : Session} {bays : List LaidBay}

theorem baySections_eq_ok {id : String} {node : Node} {rails : List Rail} :
    baySections vl id node s = .ok rails t ↔ s.network.bayRails vl ⟨id, node⟩ = rails ∧ s = t := by
  simp only [baySections, bind_eq_ok, network_eq_ok, bayRails]
  constructor
  · rintro ⟨_, _, ⟨rfl, rfl⟩, h⟩
    cases hs : s.network.sectionIndex? id <;> simpa only [hs, pure_eq_ok] using h
  · intro h
    refine ⟨_, _, ⟨rfl, rfl⟩, ?_⟩
    cases hs : s.network.sectionIndex? id <;> simpa only [hs, pure_eq_ok] using h

theorem nextNode_eq_ok {node : Node} :
    nextNode vl s = .ok node t ↔
      ∃ w, s.network.inside? vl = some (.nodeBreaker w) ∧ w.nextNode = node ∧ s = t := by
  simp only [nextNode, bind_eq_ok, network_eq_ok, lookUp_eq_ok, pure_eq_ok, wiring_eq_ok_iff]
  constructor
  · rintro ⟨_, _, ⟨rfl, rfl⟩, w, _, ⟨hw, rfl⟩, h⟩
    exact ⟨w, hw, h⟩
  · rintro ⟨w, hw, h⟩
    exact ⟨_, s, ⟨rfl, rfl⟩, w, s, ⟨hw, rfl⟩, h⟩

/-- The bay of a line is laid as planned. -/
theorem extended_createLineBay (h : Extended X (laid bays) C n s.network) {nodes : BayNodes}
    {naming : NamingStrategy} {base : String}
    (hok : createLineBay naming vl rail base nodes s = .ok () t) :
    ∃ b : LaidBay, b.toBayPlan = n.bayPlan vl rail nodes ∧
      Extended X (laid (bays ++ [b])) C n t.network := by
  simp only [createLineBay, bind_eq_ok, baySections_eq_ok, network_eq_ok] at hok
  obtain ⟨rails, _, ⟨hrails, rfl⟩, _, _, ⟨rfl, rfl⟩, _, u, hbay, hok⟩ := hok
  have hplan : rails = (n.bayPlan vl rail nodes).rails := by
    rw [← hrails, h.bayRails_eq]
    rfl
  subst hplan
  obtain ⟨b, hb, hu⟩ := extended_createBay (p := n.bayPlan vl rail nodes) h hbay
  refine ⟨b, hb, ?_⟩
  split at hok
  · obtain rfl := emit_eq_ok.mp hok
    exact hu
  · obtain ⟨-, rfl⟩ := pure_eq_ok.mp hok
    exact hu

end Run

end Switchyard
