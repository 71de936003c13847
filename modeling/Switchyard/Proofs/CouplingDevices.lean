import Switchyard.Proofs.CouplingSides
import Switchyard.Proofs.SectionSteps

namespace Switchyard

open Std Network Run

/-- A breaker, and the disconnectors at each of its nodes. -/
structure CouplingDevice where
  breaker : Switch
  side1 : List Switch
  side2 : List Switch

def CouplingDevice.switches (d : CouplingDevice) : List Switch :=
  d.breaker :: (d.side1 ++ d.side2)

variable {S : Set Switch} {C : Set Connectable} {n m : Network} {s t : Session}
  {b b1 b2 : BusbarSection} {d : CouplingDevice} {xs : List Switch} {x : Switch} {node : Node}
  {naming : NamingStrategy} {base vl : String} {leftOut : Option OuterBusbar}

namespace Network

/-- The disconnectors at a node: a closed one to busbar section `b`, and open ones to
those alongside it. No two lead to the same busbar section. -/
structure Disconnectors (n : Network) (node : Node) (b : BusbarSection) (xs : List Switch) :
    Prop where
  alongside : ∀ x ∈ xs, ∃ t, n.Alongside b t ∧
    x.unnamed = baySwitch b.voltageLevel .disconnector node t.node (t.id != b.id)
  nodup : (xs.map (·.node2)).Nodup
  closed : ∃ x, xs.filter (!·.isOpen) = [x] ∧ x.node2 = b.node

/-- The device leads from one busbar section over a closed breaker to the other one. -/
structure Bridges (n : Network) (b1 b2 : BusbarSection) (d : CouplingDevice) : Prop where
  breaker_eq : d.breaker.unnamed =
    baySwitch b1.voltageLevel .breaker d.breaker.node1 d.breaker.node2 false
  side1 : n.Disconnectors d.breaker.node1 b1 d.side1
  side2 : n.Disconnectors d.breaker.node2 b2 d.side2

/-- The second network is the first one with a device that couples the busbar sections
`b1` and `b2`. Where the two are the only ones of their section index, all of it is closed.
What there was is joined as before and by the device. -/
structure Couples (n m : Network) (b1 b2 : BusbarSection) (d : CouplingDevice) : Prop
    extends n.Bridges b1 b2 d where
  extended : Extended ∅ {x | x ∈ d.switches} ∅ n m
  nodes_ne : d.breaker.node1 ≠ d.breaker.node2
  nodes_new : ∃ w, n.inside? b1.voltageLevel = some (.nodeBreaker w) ∧
    d.breaker.node1 ∉ w.nodes ∧ d.breaker.node2 ∉ w.nodes
  two_rails : ∀ p1 p2, b1.position = some p1 → b2.position = some p2 →
    p1.sectionIndex = p2.sectionIndex →
    (n.parallelSections b1.voltageLevel p1.sectionIndex).length = 2 →
    ∀ x ∈ d.switches, x.isOpen = false
  joins_iff : ∃ w w', n.inside? b1.voltageLevel = some (.nodeBreaker w) ∧
    m.inside? b1.voltageLevel = some (.nodeBreaker w') ∧ ∀ a ∈ w.nodes, ∀ c ∈ w.nodes,
      (w'.Joins a c ↔
        Relation.EqvGen (fun a c => w.Joins a c ∨ a = b1.node ∧ c = b2.node) a c)

end Network

namespace Coupling

/-- The disconnectors between a node and the rails of a side: the one to the section itself
is closed. -/
def sideSwitches (b : BusbarSection) (node : Node) (rails : List Rail) : List Switch :=
  rails.map fun r => baySwitch b.voltageLevel .disconnector node r.node (r.id != b.id)

/-- The switches of a device as they are laid: the breaker is between the next two nodes,
and each side has a disconnector to each of its rails. -/
structure Lays (n : Network) (b1 b2 : BusbarSection) (w : Wiring) (d : CouplingDevice) :
    Prop where
  wiring : n.inside? b1.voltageLevel = some (.nodeBreaker w)
  breaker_eq : d.breaker.unnamed =
    baySwitch b1.voltageLevel .breaker w.nextNode (w.nextNode + 1) false
  side1_eq : d.side1.map (·.unnamed) =
    sideSwitches b1 w.nextNode (sideRails n b1 (leftOut? n b1 b2))
  side2_eq : d.side2.map (·.unnamed) =
    sideSwitches b2 (w.nextNode + 1) (sideRails n b2 ((leftOut? n b1 b2).map (·.other)))

end Coupling

/-- Where two new nodes are closed to each other and to one old node each, the old nodes
are joined besides as the new ones join them. -/
theorem Wiring.Carries.joins_iff_of_bridge {w w' : Wiring} {T : Set (Node × Attachment)}
    (h : w.Carries S T w') (hw : w.Sound) {a1 a2 n1 n2 : Node} (hn1 : n1 ∉ w.nodes)
    (hn2 : n2 ∉ w.nodes) (hne : n1 ≠ n2) (ha1 : a1 ∈ w.nodes) (ha2 : a2 ∈ w.nodes)
    (hbridge : ∀ a c, (∃ x ∈ S, x.isOpen = false ∧ x.node1 = a ∧ x.node2 = c) ↔
      a = n1 ∧ c = n2 ∨ a = n1 ∧ c = a1 ∨ a = n2 ∧ c = a2) {a c : Node} (ha : a ∈ w.nodes)
    (hc : c ∈ w.nodes) :
    w'.Joins a c ↔ Relation.EqvGen (fun a c => w.Joins a c ∨ a = a1 ∧ c = a2) a c := by
  have hcloses : ∀ {a c}, w'.Closes a c ↔
      w.Closes a c ∨ a = n1 ∧ c = n2 ∨ a = n1 ∧ c = a1 ∨ a = n2 ∧ c = a2 := fun {a c} => by
    rw [h.closes_iff, hbridge]
  -- The new nodes fold back to the old ones that they are closed to.
  let fold : Node → Node := fun a => if a = n1 then a1 else if a = n2 then a2 else a
  have hfold1 : fold n1 = a1 := if_pos rfl
  have hfold2 : fold n2 = a2 := by
    simp only [fold, if_neg hne.symm, if_true]
  have hfix : ∀ a ∈ w.nodes, fold a = a := by
    intro a ha
    have h1 : a ≠ n1 := fun he => hn1 (he ▸ ha)
    have h2 : a ≠ n2 := fun he => hn2 (he ▸ ha)
    simp only [fold, if_neg h1, if_neg h2]
  refine eqvGen_iff_of_map (f := fold) ?_ ?_ (hfix a ha) (hfix c hc)
  · rintro x y (hjoins | ⟨rfl, rfl⟩)
    · exact Relation.EqvGen.mono (fun _ _ hx => hcloses.mpr (Or.inl hx)) _ _ hjoins
    · have hfirst : w'.Closes n1 x := hcloses.mpr (Or.inr (Or.inr (Or.inl ⟨rfl, rfl⟩)))
      have hbreaker : w'.Closes n1 n2 := hcloses.mpr (Or.inr (Or.inl ⟨rfl, rfl⟩))
      have hsecond : w'.Closes n2 y := hcloses.mpr (Or.inr (Or.inr (Or.inr ⟨rfl, rfl⟩)))
      exact .trans _ _ _ (.symm _ _ (.rel _ _ hfirst))
        (.trans _ _ _ (.rel _ _ hbreaker) (.rel _ _ hsecond))
  · intro x y hx
    rcases hcloses.mp hx with hold | ⟨rfl, rfl⟩ | ⟨rfl, rfl⟩ | ⟨rfl, rfl⟩
    · obtain ⟨hxn, hyn⟩ := hw.mem_nodes_of_closes hold
      rw [hfix x hxn, hfix y hyn]
      exact .rel _ _ (Or.inl (.rel _ _ hold))
    · rw [hfold1, hfold2]
      exact .rel _ _ (Or.inr ⟨rfl, rfl⟩)
    · rw [hfold1, hfix y ha1]
      exact .refl _
    · rw [hfold2, hfix y ha2]
      exact .refl _

theorem Network.Alongside.ends_of_closed {c : BusbarSection} (h : n.Alongside b c)
    (hb : n.busbarSections[b.id]? = some b)
    (hx : x.unnamed = baySwitch b.voltageLevel .disconnector node c.node (c.id != b.id))
    (hclosed : x.isOpen = false) : x.node1 = node ∧ x.node2 = b.node := by
  have hopen : (c.id != b.id) = false := (congrArg Switch.isOpen hx).symm.trans hclosed
  have hid : c.id = b.id := by simpa using hopen
  have hsame : c = b := Option.some.inj ((hid ▸ h.1).symm.trans hb)
  exact ⟨congrArg Switch.node1 hx, hsame ▸ congrArg Switch.node2 hx⟩

namespace Network.Disconnectors

theorem ends_of_closed (h : n.Disconnectors node b xs) (hb : n.busbarSections[b.id]? = some b)
    (hx : x ∈ xs) (hclosed : x.isOpen = false) : x.node1 = node ∧ x.node2 = b.node := by
  obtain ⟨t, ht, heq⟩ := h.alongside x hx
  exact ht.ends_of_closed hb heq hclosed

theorem exists_closed (h : n.Disconnectors node b xs) (hb : n.busbarSections[b.id]? = some b) :
    ∃ x ∈ xs, x.isOpen = false ∧ x.node1 = node ∧ x.node2 = b.node := by
  obtain ⟨x, hx, -⟩ := h.closed
  obtain ⟨hin, hclosed⟩ := List.mem_filter.mp (hx ▸ List.mem_singleton_self x)
  have hclosed : x.isOpen = false := by simpa using hclosed
  exact ⟨x, hin, hclosed, h.ends_of_closed hb hin hclosed⟩

section Sides

variable (hn : n.Coherent False) (hb : n.busbarSections[b.id]? = some b)
  (hxs : xs.map (·.unnamed) = Coupling.sideSwitches b node (Coupling.sideRails n b leftOut))
include hn hb hxs

theorem alongside_of_side (hx : x ∈ xs) : ∃ t, n.Alongside b t ∧
    x.unnamed = baySwitch b.voltageLevel .disconnector node t.node (t.id != b.id) := by
  unfold Coupling.sideSwitches at hxs
  obtain ⟨r, hr, heq⟩ := List.mem_map.mp (hxs ▸ List.mem_map_of_mem hx)
  obtain ⟨t, ht, rfl⟩ := Coupling.alongside_of_mem_sideRails hn hb hr
  exact ⟨t, ht, heq.symm⟩

theorem nodup_of_side : (xs.map (·.node2)).Nodup := by
  have hnodes : xs.map (·.node2) = (Coupling.sideRails n b leftOut).map (·.node) := by
    have hmap := congrArg (List.map (·.node2)) hxs
    rwa [Coupling.sideSwitches, List.map_map, List.map_map] at hmap
  rw [hnodes]
  refine (Coupling.nodup_sideRails hn).map_on fun r hr r' hr' he => ?_
  exact hn.rail_eq_of_node (Coupling.hasRail_of_mem_sideRails hn hb hr)
    (Coupling.hasRail_of_mem_sideRails hn hb hr') he

theorem closed_of_side (hspared : Coupling.Spared n b leftOut) :
    ∃ x ∈ xs, x.isOpen = false ∧ x.node2 = b.node := by
  have hown := List.mem_map_of_mem (f := fun r =>
    baySwitch b.voltageLevel .disconnector node r.node (r.id != b.id))
    (Coupling.rail_mem_sideRails hn hb hspared)
  rw [← Coupling.sideSwitches, ← hxs] at hown
  obtain ⟨x, hx, heq⟩ := List.mem_map.mp hown
  have hopen : x.isOpen = (b.rail.id != b.id) := congrArg Switch.isOpen heq
  rw [BusbarSection.rail, bne_self_eq_false] at hopen
  exact ⟨x, hx, hopen, congrArg Switch.node2 heq⟩

theorem of_side (hspared : Coupling.Spared n b leftOut) : n.Disconnectors node b xs := by
  have hnodup := nodup_of_side hn hb hxs
  obtain ⟨x, hx, hclosed, hnode⟩ := closed_of_side hn hb hxs hspared
  refine ⟨fun _ => alongside_of_side hn hb hxs, hnodup, x, ?_, hnode⟩
  refine List.perm_singleton.mp ((List.perm_ext_iff_of_nodup (hnodup.of_map.filter _)
    (List.nodup_singleton x)).mpr fun y => ?_)
  rw [List.mem_filter, List.mem_singleton]
  constructor
  · rintro ⟨hy, hopen⟩
    obtain ⟨t, ht, hty⟩ := alongside_of_side hn hb hxs hy
    have hends := ht.ends_of_closed hb hty (by simpa using hopen)
    exact List.inj_on_of_nodup_map hnodup hy hx (hends.2.trans hnode.symm)
  · rintro rfl
    exact ⟨hx, by rw [hclosed]; rfl⟩

end Sides

end Network.Disconnectors

namespace Network.Bridges

theorem voltageLevel_of_mem (h : n.Bridges b1 b2 d) (hvl : b1.voltageLevel = b2.voltageLevel)
    (hx : x ∈ d.switches) : x.voltageLevel = b1.voltageLevel := by
  rcases List.mem_cons.mp hx with rfl | hx
  · exact congrArg Switch.voltageLevel h.breaker_eq
  rcases List.mem_append.mp hx with hx | hx
  · obtain ⟨t, -, heq⟩ := h.side1.alongside x hx
    exact congrArg Switch.voltageLevel heq
  · obtain ⟨t, -, heq⟩ := h.side2.alongside x hx
    exact (congrArg Switch.voltageLevel heq).trans hvl.symm

/-- The breaker and one disconnector of each side are closed. -/
theorem closed_iff (h : n.Bridges b1 b2 d) (h1 : n.busbarSections[b1.id]? = some b1)
    (h2 : n.busbarSections[b2.id]? = some b2) (hvl : b1.voltageLevel = b2.voltageLevel)
    (a c : Node) :
    (∃ x ∈ switchesAt {x | x ∈ d.switches} b1.voltageLevel,
      x.isOpen = false ∧ x.node1 = a ∧ x.node2 = c) ↔
      a = d.breaker.node1 ∧ c = d.breaker.node2 ∨ a = d.breaker.node1 ∧ c = b1.node ∨
        a = d.breaker.node2 ∧ c = b2.node := by
  have hin : ∀ x, x ∈ switchesAt {x | x ∈ d.switches} b1.voltageLevel ↔ x ∈ d.switches :=
    fun x => and_iff_left_of_imp (h.voltageLevel_of_mem hvl)
  have hclosed : d.breaker.isOpen = false := congrArg Switch.isOpen h.breaker_eq
  simp only [hin]
  simp only [CouplingDevice.switches, List.mem_cons, List.mem_append]
  constructor
  · rintro ⟨x, rfl | hx | hx, hopen, rfl, rfl⟩
    · exact Or.inl ⟨rfl, rfl⟩
    · exact Or.inr (Or.inl (h.side1.ends_of_closed h1 hx hopen))
    · exact Or.inr (Or.inr (h.side2.ends_of_closed h2 hx hopen))
  · rintro (⟨rfl, rfl⟩ | ⟨rfl, rfl⟩ | ⟨rfl, rfl⟩)
    · exact ⟨_, Or.inl rfl, hclosed, rfl, rfl⟩
    · obtain ⟨x, hx, hends⟩ := h.side1.exists_closed h1
      exact ⟨x, Or.inr (Or.inl hx), hends⟩
    · obtain ⟨x, hx, hends⟩ := h.side2.exists_closed h2
      exact ⟨x, Or.inr (Or.inr hx), hends⟩

end Network.Bridges

namespace Coupling

theorem sectionsOf_congr (h : m.busbarSections = n.busbarSections) (vl : String) (i : Int32) :
    sectionsOf m vl i = sectionsOf n vl i := by
  simp only [sectionsOf, parallelSections, busbarSectionsIn, h]

theorem extended_connectSide (h : Extended ∅ S C n s.network) {count : Nat}
    (hok : connectSide naming b.voltageLevel base node b.rail b.position leftOut s =
      .ok count t) :
    ∃ xs : List Switch,
      xs.map (·.unnamed) = sideSwitches b node (sideRails n b leftOut) ∧
      Extended ∅ ({x | x ∈ xs} ∪ S) C n t.network := by
  unfold connectSide at hok
  cases hp : b.position with
  | none =>
    have hside : sideRails n b leftOut = [b.rail] := by simp only [sideRails, hp]
    rw [hside]
    rw [hp] at hok
    obtain ⟨_, u, hdisconnectors, hok⟩ := bind_eq_ok.mp hok
    obtain ⟨_, _, htold, hok⟩ := bind_eq_ok.mp hok
    cases emit_eq_ok.mp htold
    obtain ⟨-, rfl⟩ := pure_eq_ok.mp hok
    obtain ⟨xs, hxs, hu⟩ := extended_createDisconnectors h hdisconnectors
    exact ⟨xs, hxs, hu⟩
  | some p =>
    have hside : sideRails n b leftOut =
        (keptSections (sectionsOf n b.voltageLevel p.sectionIndex) leftOut).map (·.1) := by
      simp only [sideRails, hp]
    rw [hside]
    rw [hp] at hok
    simp only [bind_eq_ok, network_eq_ok, pure_eq_ok] at hok
    obtain ⟨_, _, ⟨rfl, rfl⟩, _, u, hdisconnectors, -, rfl⟩ := hok
    rw [sectionsOf_congr h.busbarSections_eq] at hdisconnectors
    cases leftOut with
    | none => exact extended_createDisconnectors h hdisconnectors
    | some outer => exact extended_createDisconnectors h hdisconnectors

/-- A breaker is created between the next two nodes, and each side is connected. -/
theorem coupleSections_eq_ok (h1 : s.network.busbarSections[b1.id]? = some b1)
    (h2 : s.network.busbarSections[b2.id]? = some b2) {given : Option String}
    (hok : coupleSections naming given b1.voltageLevel b1.rail b2.rail s = .ok () t) :
    ∃ base w u count1 v count2 v', s.network.inside? b1.voltageLevel = some (.nodeBreaker w) ∧
      createSwitch b1.voltageLevel .breaker (naming.breaker base) w.nextNode (w.nextNode + 1)
        false false s = .ok () u ∧
      connectSide naming b1.voltageLevel base w.nextNode b1.rail b1.position
        (leftOut? s.network b1 b2) u = .ok count1 v ∧
      connectSide naming b1.voltageLevel base (w.nextNode + 1) b2.rail b2.position
        ((leftOut? s.network b1 b2).map (·.other)) v = .ok count2 v' ∧
      t.network = v'.network := by
  simp only [coupleSections, bind_eq_ok, nextNode_eq_ok, network_eq_ok] at hok
  obtain ⟨_, _, ⟨w, hw, rfl, rfl⟩, _, u, hbreaker, _, _, ⟨rfl, rfl⟩, count1, v, hside1, count2, v',
    hside2, hend⟩ := hok
  have hsections := busbarSections_createSwitch hbreaker
  have hposition : ∀ {b : BusbarSection}, s.network.busbarSections[b.id]? = some b →
      u.network.busbarSections[b.rail.id]?.bind (·.position) = b.position := by
    intro b hb
    rw [hsections, BusbarSection.rail, hb, Option.bind_some]
  rw [hposition h1, hposition h2] at hside1 hside2
  have hleft : leftOut? u.network b1 b2 = leftOut? s.network b1 b2 := by
    simp only [leftOut?, sectionsOf_congr hsections]
  change connectSide _ _ _ _ _ _ (leftOut? u.network b1 b2) _ = _ at hside1
  change connectSide _ _ _ _ _ _ ((leftOut? u.network b1 b2).map (·.other)) _ = _ at hside2
  rw [hleft] at hside1 hside2
  refine ⟨_, w, u, count1, v, count2, v', hw, hbreaker, hside1, hside2, ?_⟩
  split at hend
  · cases emit_eq_ok.mp hend
    rfl
  · obtain ⟨-, rfl⟩ := pure_eq_ok.mp hend
    rfl

/-- Two busbar sections are coupled over a breaker on the next two nodes. -/
theorem extended_coupleSections (h : s.network.Coherent False)
    (h1 : s.network.busbarSections[b1.id]? = some b1)
    (h2 : s.network.busbarSections[b2.id]? = some b2) (hvl : b1.voltageLevel = b2.voltageLevel)
    {given : Option String}
    (hok : coupleSections naming given b1.voltageLevel b1.rail b2.rail s = .ok () t) :
    ∃ w d, Lays s.network b1 b2 w d ∧
      Extended ∅ {x | x ∈ d.switches} ∅ s.network t.network := by
  obtain ⟨base, w, u, count1, v, count2, v', hw, hbreaker, hside1, hside2, hnetwork⟩ :=
    coupleSections_eq_ok h1 h2 hok
  obtain ⟨x, hx, hu⟩ := extended_createSwitch (Extended.refl (X := ∅) h) hbreaker
  obtain ⟨xs1, hxs1, hv⟩ := extended_connectSide hu hside1
  rw [hvl] at hside2
  obtain ⟨xs2, hxs2, hv'⟩ := extended_connectSide hv hside2
  have hset : ({y | y ∈ xs2} ∪ ({y | y ∈ xs1} ∪ insert x ∅) : Set Switch) =
      {y | y ∈ (CouplingDevice.mk x xs1 xs2).switches} := by
    ext y
    simp only [CouplingDevice.switches, Set.mem_union, Set.mem_ofPred_eq, Set.mem_insert_iff,
      Set.mem_empty_iff_false, List.mem_cons, List.mem_append]
    grind
  exact ⟨w, ⟨x, xs1, xs2⟩, ⟨hw, hx, hxs1, hxs2⟩, hnetwork ▸ hset ▸ hv'⟩

theorem isOpen_eq_false {rails : List Rail} (hrails : ∀ r ∈ rails, r = b.rail)
    (hxs : xs.map (·.unnamed) = sideSwitches b node rails) (hx : x ∈ xs) : x.isOpen = false := by
  unfold sideSwitches at hxs
  obtain ⟨r, hr, heq⟩ := List.mem_map.mp (hxs ▸ List.mem_map_of_mem hx)
  obtain rfl := hrails r hr
  have hopen : (b.rail.id != b.id) = x.isOpen := congrArg Switch.isOpen heq
  rw [← hopen, BusbarSection.rail, bne_self_eq_false]

namespace Lays

variable {w : Wiring} (h : Lays n b1 b2 w d)
include h

theorem node1_eq : d.breaker.node1 = w.nextNode :=
  congrArg Switch.node1 h.breaker_eq

theorem node2_eq : d.breaker.node2 = w.nextNode + 1 :=
  congrArg Switch.node2 h.breaker_eq

theorem nodes_new (hroom : n.Room b1.voltageLevel 2) :
    d.breaker.node1 ∉ w.nodes ∧ d.breaker.node2 ∉ w.nodes := by
  rw [h.node1_eq, h.node2_eq, Wiring.mem_nodes, Wiring.mem_nodes]
  exact ⟨hroom.unplaced_nextNode h.wiring w h.wiring,
    hroom.unplaced (i := 1) (by decide) h.wiring w h.wiring⟩

variable (hn : n.Coherent False) (h1 : n.busbarSections[b1.id]? = some b1)
  (h2 : n.busbarSections[b2.id]? = some b2) (hspared1 : Spared n b1 (leftOut? n b1 b2))
  (hspared2 : Spared n b2 ((leftOut? n b1 b2).map (·.other)))
include hn h1 h2 hspared1 hspared2

theorem bridges : n.Bridges b1 b2 d where
  breaker_eq := by rw [h.node1_eq, h.node2_eq, h.breaker_eq]
  side1 := .of_side hn h1 (h.node1_eq ▸ h.side1_eq) hspared1
  side2 := .of_side hn h2 (h.node2_eq ▸ h.side2_eq) hspared2

/-- Between the only two sections of a section index, all switches are closed. -/
theorem isOpen_eq_false_of_two (hne : b1.id ≠ b2.id) (hvl : b1.voltageLevel = b2.voltageLevel)
    {p1 p2 : BusbarPosition} (hp1 : b1.position = some p1) (hp2 : b2.position = some p2)
    (hi : p1.sectionIndex = p2.sectionIndex)
    (htwo : (n.parallelSections b1.voltageLevel p1.sectionIndex).length = 2)
    (hx : x ∈ d.switches) : x.isOpen = false := by
  obtain ⟨outer, hleft⟩ : ∃ outer, leftOut? n b1 b2 = some outer := by
    simp [leftOut?, hp1, hp2, hi]
  have hside1 := h.side1_eq
  have hside2 := h.side2_eq
  rw [hleft] at hspared1 hspared2 hside1 hside2
  rcases List.mem_cons.mp hx with rfl | hx
  · exact congrArg Switch.isOpen h.breaker_eq
  rcases List.mem_append.mp hx with hx | hx
  · refine isOpen_eq_false (fun r hr => ?_) hside1 hx
    exact eq_rail_of_two hn h1 hp1 h2 hvl.symm hp2 hi.symm hne.symm htwo hspared1 hr
  · refine isOpen_eq_false (fun r hr => ?_) hside2 hx
    rw [hvl, hi] at htwo
    exact eq_rail_of_two hn h2 hp2 h1 hvl hp1 hi hne htwo hspared2 hr

end Lays

theorem couples_of_coupleSections (h : s.network.Coherent False)
    (h1 : s.network.busbarSections[b1.id]? = some b1)
    (h2 : s.network.busbarSections[b2.id]? = some b2) (hne : b1.id ≠ b2.id)
    (hvl : b1.voltageLevel = b2.voltageLevel)
    (hpositions : ∀ p, b1.position = some p → b2.position ≠ some p)
    (hroom : s.network.Room b1.voltageLevel 2) {given : Option String}
    (hok : coupleSections naming given b1.voltageLevel b1.rail b2.rail s = .ok () t) :
    ∃ d, s.network.Couples t.network b1 b2 d := by
  obtain ⟨w, d, hlays, hextended⟩ := extended_coupleSections h h1 h2 hvl hok
  obtain ⟨hspared1, hspared2⟩ := spared_leftOut? h h1 h2 hvl hpositions
  have hbridges := hlays.bridges h h1 h2 hspared1 hspared2
  have hnodes : d.breaker.node1 ≠ d.breaker.node2 := by
    rw [hlays.node1_eq, hlays.node2_eq]
    grind
  have hnew := hlays.nodes_new hroom
  obtain ⟨w', hw', hs, -, ha⟩ := hextended.toWired.of_wiring (Set.notMem_empty _) hlays.wiring
  have hplaced : ∀ {b : BusbarSection}, s.network.busbarSections[b.id]? = some b →
      b.voltageLevel = b1.voltageLevel → b.node ∈ w.nodes := fun {b} hb hlevel =>
    Wiring.mem_nodes.mpr (hs.placed_of_referenced
      (h.referenced_rail (hlevel ▸ h.hasRail hb : s.network.HasRail _ b.rail) hlays.wiring))
  exact ⟨d, {
    toBridges := hbridges
    extended := hextended
    nodes_ne := hnodes
    nodes_new := ⟨w, hlays.wiring, hnew⟩
    two_rails := fun _ _ hp1 hp2 hi htwo _ hx =>
      hlays.isOpen_eq_false_of_two h h1 h2 hspared1 hspared2 hne hvl hp1 hp2 hi htwo hx
    joins_iff := ⟨w, w', hlays.wiring, hw', fun a hin c hin' =>
      ha.joins_iff_of_bridge hs hnew.1 hnew.2 hnodes (hplaced h1 rfl)
        (hplaced h2 hvl.symm) (hbridges.closed_iff h1 h2 hvl) hin hin'⟩ }⟩

theorem steps_eq {c : Coupling} (naming : NamingStrategy) (h : s.network.Coherent False)
    (h1 : s.network.busbarSections[c.id1]? = some b1)
    (h2 : s.network.busbarSections[c.id2]? = some b2) (hne : c.id1 ≠ c.id2)
    (hvl : b1.voltageLevel = b2.voltageLevel) :
    c.steps naming s =
      (coupleSections naming c.base b1.voltageLevel b1.rail b2.rail >>= fun _ =>
        emit (.couplingCreated b1.voltageLevel c.id1 c.id2)) s := by
  have hid1 : b1.id = c.id1 := h.connectable_id _ (.busbarSection b1) h1
  have hid2 : b2.id = c.id2 := h.connectable_id _ (.busbarSection b2) h2
  have hfind1 : junction c.id1 s = .ok (.busbarSection c.id1 b1.voltageLevel b1.node) s :=
    junction_eq_ok.mpr ⟨h.junction_of_busbarSection h1, rfl⟩
  have hfind2 : junction c.id2 s = .ok (.busbarSection c.id2 b2.voltageLevel b2.node) s :=
    junction_eq_ok.mpr ⟨h.junction_of_busbarSection h2, rfl⟩
  have hlevel : ¬(Junction.busbarSection c.id1 b1.voltageLevel b1.node).voltageLevel ≠
      (Junction.busbarSection c.id2 b2.voltageLevel b2.node).voltageLevel := not_not.mpr hvl
  rw [steps, bind_apply, hfind1]
  dsimp only
  rw [bind_apply, hfind2]
  dsimp only
  rw [if_neg hne, if_neg hlevel, BusbarSection.rail, BusbarSection.rail, hid1, hid2]
  rfl

end Coupling

namespace Modification

theorem succeeds_and_couples (hn : n.Coherent False) {c : Coupling}
    (h1 : n.busbarSections[c.id1]? = some b1) (h2 : n.busbarSections[c.id2]? = some b2)
    (hne : c.id1 ≠ c.id2) (hvl : b1.voltageLevel = b2.voltageLevel)
    (hpositions : ∀ p, b1.position = some p → b2.position ≠ some p)
    (hroom : (coupling c).HasRoom n) (naming : NamingStrategy) (strict : Bool) :
    ((coupling c).apply n naming strict).Succeeds ∧
      ∃ d, n.Couples ((coupling c).apply n naming strict).network b1 b2 d := by
  have hid1 : b1.id = c.id1 := hn.connectable_id _ (.busbarSection b1) h1
  have hid2 : b2.id = c.id2 := hn.connectable_id _ (.busbarSection b2) h2
  have hroom : n.Room b1.voltageLevel 2 := hroom _ (hn.junction_of_busbarSection h1)
  have hsteps := Coupling.steps_eq (s := ⟨n, []⟩) naming hn h1 h2 hne hvl
  have hsure : (c.steps naming).Sure ⟨n, []⟩ := by
    intro f t hr
    rw [hsteps] at hr
    exact Fails.bind (Coupling.sure_coupleSections (s := ⟨n, []⟩) hn (hn.hasRail h1)
      (hvl ▸ hn.hasRail h2) hroom) (fun _ _ _ => fails_emit _) f t hr
  have hsucceeds : ((coupling c).apply n naming strict).Succeeds :=
    (c.builds_steps naming fun _ => id : Builds False (fun _ => False) _ _).succeeds_of_sure hn
      hsure strict
  obtain ⟨t, hok, hnetwork⟩ := ok_of_succeeds hsucceeds
  rw [hsteps] at hok
  obtain ⟨_, u, hcouple, hok⟩ := bind_eq_ok.mp hok
  cases emit_eq_ok.mp hok
  rw [← hid1] at h1 hne
  rw [← hid2] at h2 hne
  obtain ⟨d, hd⟩ := Coupling.couples_of_coupleSections (s := ⟨n, []⟩) hn h1 h2 hne hvl hpositions
    hroom hcouple
  exact ⟨hsucceeds, d, hnetwork ▸ hd⟩

/-- Three parallel busbar sections. -/
def threeRails : List Operation :=
  [.change (.addVoltageLevel { id := "V" }),
    .change (.addBusbarSection
      { voltageLevel := "V", id := "B1", node := 0, position := some ⟨1, 1⟩ }),
    .change (.addBusbarSection
      { voltageLevel := "V", id := "B2", node := 1, position := some ⟨2, 1⟩ }),
    .change (.addBusbarSection
      { voltageLevel := "V", id := "B3", node := 2, position := some ⟨3, 1⟩ })]

/-- A busbar section of section 1. -/
def parallelRail (id : String) (node : Node) (busbarIndex : Int32) : BusbarSection where
  id
  name := none
  voltageLevel := "V"
  node
  position := some ⟨busbarIndex, 1⟩

/-- Two parallel busbar sections, and equipment at the node with the highest number. -/
def crowdedParallels : List Operation :=
  [.change (.addVoltageLevel { id := "V" }),
    .change (.addBusbarSection
      { voltageLevel := "V", id := "B1", node := 0, position := some ⟨1, 1⟩ }),
    .change (.addBusbarSection
      { voltageLevel := "V", id := "B2", node := 5, position := some ⟨2, 1⟩ }),
    .change (.addConnectable (.injection
      { owner := 0, id := "LD", terminal := some (.atNode "V" .last) }))]

end Modification

end Switchyard
