import Switchyard.Proofs.FeederRanks
import Switchyard.Proofs.Serving
import Switchyard.Proofs.Rooms

namespace Switchyard

open Std Network

variable {X : Set String} {S : Set Switch} {C : Set Connectable} {n m k : Network}
  {s t : Session} {bays : List LaidBay} {c : Connectable} {vl id : String} {node fork : Node}

/-- A connectable that was created comes besides, where its draft says. -/
theorem ConnectableDraft.extended_create (h : Extended X S C n m) {d : ConnectableDraft}
    (hok : d.create m = .ok id k) :
    ∃ c : Connectable, c.id = id ∧ c.position = none ∧ c.terminals.map (·.1) = d.sides ∧
      (∀ side, c.terminal? side = d.terminal? side) ∧ Extended X S (insert c C) n k := by
  have hk : k.Coherent False :=
    (Change.addConnectable d).coherent_of_ok (Edit.after_map _ _) h.coherent hok
  obtain ⟨ts, make, hd⟩ | ⟨f, -, hrefuse⟩ := d.makes_or_refuses
  · obtain ⟨unique, hcreate⟩ := hd.create_eq
    rw [hcreate] at hok
    have hmake : (make id).id = id ∧ (make id).terminals = ts ∧
        (make id).entry = (make d.id).entry ∧ (make id).holder = none :=
      ⟨hd.id_eq id, hd.terminals_eq id, (hd.entry_eq id).trans (hd.entry_eq d.id).symm,
        congrArg IndexEntry.voltageLevel (hd.entry_eq id)⟩
    refine ⟨make id, hmake.1, hd.position_eq id, by rw [hmake.2.1, hd.sides_eq], fun side => ?_,
      h.enter hmake hk hok⟩
    apply Option.ext
    intro t
    rw [Connectable.terminal?_eq_some_iff, hmake.2.1, hd.terminal_iff]
  · rw [hrefuse m] at hok
    cases hok

namespace Network

theorem Coherent.placed_of_attached (h : n.Coherent False) (hc : n.Keeps id c) {side : Side}
    (ht : (side, .atNode vl node) ∈ c.terminals) :
    ∃ w, n.inside? vl = some (.nodeBreaker w) ∧ node ∈ w.places := by
  obtain ⟨w, hw, ha⟩ := (h.holdsAt_iff vl node ⟨id, side⟩).mpr ⟨c, hc, ht⟩
  have hheld : node ∈ w.terminals := mem_iff_exists_getElem?.mpr ⟨_, ha⟩
  exact ⟨w, hw, (h.sound vl w hw).terminal_placed node hheld⟩

theorem Unplaced.ne_of_attached (hnew : n.Unplaced vl fork) (h : n.Coherent False)
    (hc : n.Keeps id c) {side : Side} (ht : (side, .atNode vl node) ∈ c.terminals) :
    node ≠ fork := by
  obtain ⟨w, hw, hplaced⟩ := h.placed_of_attached hc ht
  exact fun he => hnew w hw (he ▸ hplaced)

theorem Coherent.side_unique (h : n.Coherent False) (hc : n.Keeps id c) {a b : Side}
    (ha : (a, .atNode vl node) ∈ c.terminals) (hb : (b, .atNode vl node) ∈ c.terminals) :
    a = b := by
  have hone := (h.holdsAt_iff vl node ⟨id, a⟩).mpr ⟨c, hc, ha⟩
  have htwo := (h.holdsAt_iff vl node ⟨id, b⟩).mpr ⟨c, hc, hb⟩
  exact congrArg Attachment.side (holdsAt_unique hone htwo)

theorem Extended.not_meets (h : Extended X S C n m) (hvl : vl ∉ X) {w : Wiring}
    (hw : n.inside? vl = some (.nodeBreaker w)) (hnew : m.Unplaced vl fork) {x : Switch}
    (hx : x ∈ S) (hxvl : x.voltageLevel = vl) : ¬x.Meets fork := by
  obtain ⟨w', hw', -, -, ha⟩ := h.toWired.of_wiring hvl hw
  intro hmeets
  exact hnew w' hw' ((ha.place_iff fork).mpr (Or.inr (Or.inl ⟨x, ⟨hx, hxvl⟩, hmeets⟩)))

theorem Extended.ne_of_laid (h : Extended X (laid bays) C n m) {b : LaidBay} (hb : b ∈ bays)
    (hvl : b.voltageLevel ∉ X) (hfits : b.Fits n) (hnew : m.Unplaced b.voltageLevel fork) :
    b.nodes.equipment ≠ fork ∧ b.nodes.fork ≠ fork := by
  obtain ⟨w, hw, -⟩ := hfits.wired
  obtain ⟨hlevel, hnode1, hnode2⟩ := b.first_ends
  have hout := h.not_meets hvl hw hnew ⟨b, hb, List.mem_cons_self⟩ hlevel
  rw [Switch.meets_iff, hnode1, hnode2, not_or] at hout
  exact hout

theorem Extended.node?_new (h : Extended X S {c} n m) {side : Side} {number : Node}
    (ht : c.terminal? side = some (.atNode vl number)) :
    ((m.connectable? c.id).bind (·.terminal? side)).bind (·.node?) = some number := by
  rw [h.coherent.connectable?_eq_some_iff.mpr (h.keeps_new rfl), Option.bind_some, ht]
  rfl

end Network

/-- Where the connectable has its nodes, there is room for those and for as many forks. -/
def Network.HasRoomFor (n : Network) (c : Connectable) : Prop :=
  ∀ side vl node, (side, .atNode vl node) ∈ c.terminals → n.Room vl (2 * c.terminals.length)

theorem Run.note_eq_ok {α : Type} {p : Prop} [Decidable p] {e : Event} {k : Unit → Run α} {a : α}
    (hok : (if p then emit e >>= k else k ()) s = .ok a t) :
    ∃ u, u.network = s.network ∧ k () u = .ok a t := by
  split at hok
  · obtain ⟨_, u, htold, hrun⟩ := bind_eq_ok.mp hok
    cases emit_eq_ok.mp htold
    exact ⟨s.tell e, rfl, hrun⟩
  · exact ⟨s, rfl, hok⟩

theorem Junction.Admits.atNode {j : Junction} {count : Nat}
    (h : j.Admits n count (.atNode vl node)) :
    (∃ id x, j = .busbarSection id vl x) ∧ n.Upcoming vl count node := by
  cases j with
  | bus id x => cases h
  | busbarSection id x y =>
    obtain ⟨number, he, hupcoming⟩ := h
    obtain ⟨rfl, rfl⟩ : vl = x ∧ node = number := by simpa [Terminal.atNode] using he
    exact ⟨⟨id, y, rfl⟩, hupcoming⟩

namespace FeederBays

/-- The bay of a side is created on its node and on the next one. The side gets a
feeder if its order can be used and the positions can be compared. -/
theorem createBay_eq_ok {connectable : String} {r : RankedSide} {number : Node}
    (hnode : ((s.network.connectable? connectable).bind (·.terminal? r.side)).bind (·.node?) =
      some number)
    {naming : NamingStrategy} {sided : Bool} {feeder : Option Feeder}
    (hok : createBay naming connectable sided r id vl node s = .ok feeder t) :
    (∃ w base u v, s.network.inside? vl = some (.nodeBreaker w) ∧ u.network = s.network ∧
      Run.createBay naming vl ⟨number, w.nextNode⟩ base id (s.network.bayRails vl ⟨id, node⟩) u =
        .ok () v ∧ t.network = v.network) ∧
      feeder =
        if (!(s.network.feederOrders vl).isEmpty || (s.network.equipmentIn vl).length == 1) &&
          r.ranked then some (r.bay.feeder connectable) else none := by
  obtain ⟨_, _, hnetwork, hok⟩ := bind_eq_ok.mp hok
  obtain ⟨rfl, rfl⟩ := Run.network_eq_ok.mp hnetwork
  rw [hnode] at hok
  obtain ⟨u, hu, hok⟩ := Run.note_eq_ok hok
  obtain ⟨rails, _, hrails, hok⟩ := bind_eq_ok.mp hok
  obtain ⟨rfl, rfl⟩ := Run.baySections_eq_ok.mp hrails
  obtain ⟨v, hv, hok⟩ := Run.note_eq_ok hok
  simp only [bind_eq_ok, Run.nextNode_eq_ok, Run.emit_eq_ok, pure_eq_ok] at hok
  obtain ⟨_, _, ⟨w, hw, rfl, rfl⟩, _, x, hbay, _, _, rfl, rfl, rfl⟩ := hok
  rw [hu] at hbay hv
  rw [hv] at hw
  exact ⟨⟨w, _, v, x, hw, hv, hbay, rfl⟩, rfl⟩

theorem extended_createBay (h : Extended ∅ (laid bays) {c} n s.network) {r : RankedSide}
    {number : Node} (ht : c.terminal? r.side = some (.atNode vl number))
    {naming : NamingStrategy} {sided : Bool} {feeder : Option Feeder}
    (hok : createBay naming c.id sided r id vl node s = .ok feeder t) :
    ∃ (b : LaidBay) (w : Wiring), s.network.inside? vl = some (.nodeBreaker w) ∧
      b.toBayPlan = n.bayPlan vl ⟨id, node⟩ ⟨number, w.nextNode⟩ ∧
      Extended ∅ (laid (bays ++ [b])) {c} n t.network := by
  obtain ⟨⟨w, _, u, x, hw, hu, hbay, ht'⟩, -⟩ := createBay_eq_ok (h.node?_new ht) hok
  rw [h.bayRails_eq] at hbay
  have hu : Extended ∅ (laid bays) {c} n u.network := by rwa [hu]
  obtain ⟨b, hb, hx⟩ :=
    Run.extended_createBay (p := n.bayPlan vl ⟨id, node⟩ ⟨number, w.nextNode⟩) hu hbay
  exact ⟨b, w, hw, hb, ht' ▸ hx⟩

theorem room_createBay (h : s.network.Coherent False) (hc : s.network.Keeps c.id c)
    (hr : s.network.HasRail vl ⟨id, node⟩) {r : RankedSide} {number : Node}
    (ht : c.terminal? r.side = some (.atNode vl number)) {naming : NamingStrategy} {sided : Bool}
    {feeder : Option Feeder} (hok : createBay naming c.id sided r id vl node s = .ok feeder t)
    {more : Nat} {x : String} (hroom : s.network.Room x (1 + more)) : t.network.Room x more := by
  have hnode : ((s.network.connectable? c.id).bind (·.terminal? r.side)).bind (·.node?) =
      some number := by
    rw [h.connectable?_eq_some_iff.mpr hc, Option.bind_some, ht]
    rfl
  obtain ⟨⟨w, _, u, v, hw, hu, hbay, ht'⟩, -⟩ := createBay_eq_ok hnode hok
  have hu : Extended ∅ (laid []) ∅ s.network u.network := by
    rw [laid_nil, hu]
    exact .refl h
  obtain ⟨b, hb, hv⟩ :=
    Run.extended_createBay (p := s.network.bayPlan vl ⟨id, node⟩ ⟨number, w.nextNode⟩) hu hbay
  rw [ht']
  refine hv.room (Set.notMem_empty x) hroom fun w' hw' y hy => ?_
  rw [attachments_empty] at hy
  obtain ⟨sw, ⟨⟨b', hb', hsw⟩, hlevel⟩, hmeets⟩ := hy.resolve_right fun ⟨_, ha⟩ => ha
  obtain rfl : b' = b := by simpa using hb'
  rw [LaidBay.voltageLevel_of_mem hsw, hb] at hlevel
  obtain rfl : vl = x := hlevel
  cases hw.symm.trans hw'
  obtain rfl | rfl | ⟨rail, hrail, rfl⟩ := LaidBay.meets_cases hsw hmeets
  · obtain ⟨u', hu', hplaced⟩ := h.placed_of_attached hc (Connectable.terminal?_eq_some_iff.mp ht)
    cases hw.symm.trans hu'
    rw [hb]
    exact Nat.lt_add_right _ (Wiring.toNat_lt_ceiling (Wiring.mem_nodes.mpr hplaced))
  · rw [hb]
    exact Nat.lt_succ_of_le (Nat.le_of_eq (Nat.add_comm 1 more ▸ hroom w hw).toNat_nextNode)
  · rw [hb] at hrail
    have hplaced := (h.sound _ w hw).placed_of_referenced
      (h.referenced_rail (h.mem_bayRails hr hrail) hw)
    exact Nat.lt_add_right _ (Wiring.toNat_lt_ceiling (Wiring.mem_nodes.mpr hplaced))

theorem feeder_of_createBay (h : Extended ∅ (laid bays) {c} n s.network)
    (hposition : c.position = none) {r : RankedSide}
    (hj : r.junction = .busbarSection id vl node) {number : Node}
    (ht : c.terminal? r.side = some (.atNode vl number))
    {naming : NamingStrategy} {sided : Bool} {feeder : Option Feeder}
    (hok : createBay naming c.id sided r id vl node s = .ok feeder t) (f : Feeder) :
    feeder = some f ↔ r.Gains n c.id f := by
  have hin : c.isIn vl = true :=
    Connectable.isIn_iff.mpr ⟨_, _, Connectable.terminal?_eq_some_iff.mp ht, rfl⟩
  have hgains : r.Gains n c.id f ↔
      n.Comparable vl ∧ r.ranked = true ∧ f = r.bay.feeder c.id := by
    simp only [RankedSide.Gains, hj, Junction.busbarSection.injEq]
    grind
  rw [(createBay_eq_ok (h.node?_new ht) hok).2, hgains, ← h.comparable_iff hposition hin]
  simp only [Option.ite_none_right_eq_some, Option.some.injEq, Bool.and_eq_true, and_assoc,
    eq_comm (a := f)]

/-- The first sides of a connectable have their bays. Nothing is besides but those and the
connectable. Where there is room, it has no side at a fork, and the forks to come are new. -/
structure Progress (n m : Network) (c : Connectable) (bays : List LaidBay)
    (before : List (Side × Terminal)) : Prop where
  extended : Extended ∅ (laid bays) {c} n m
  serves : n.HasRoomFor c → n.Serves bays (before.map (·.2))
  forks : n.HasRoomFor c →
    ∀ b ∈ bays, ∀ side, (side, .atNode b.voltageLevel b.nodes.fork) ∉ c.terminals
  room : n.HasRoomFor c → ∀ side vl node, (side, .atNode vl node) ∈ c.terminals →
    m.Room vl (c.terminals.length - before.length)

namespace Progress

variable {before later : List (Side × Terminal)} {side : Side} {b : LaidBay}

/-- A bay at the next side, on a new fork, is apart from those there are. -/
theorem apart (h : Progress n m c bays before) (hroom : n.HasRoomFor c)
    (hc : c.terminals = before ++ (side, .atNode b.voltageLevel b.nodes.equipment) :: later)
    (hfork : m.Unplaced b.voltageLevel b.nodes.fork) : ∀ d ∈ bays, d.Apart b.toBayPlan := by
  intro d hd hlevel
  have hin : (side, .atNode b.voltageLevel b.nodes.equipment) ∈ c.terminals := by simp [hc]
  obtain ⟨hequipment, hown⟩ :=
    h.extended.ne_of_laid hd (Set.notMem_empty _) ((h.serves hroom).fits d hd) (hlevel ▸ hfork)
  refine ⟨fun he => ?_, hequipment, fun he => ?_, hown⟩
  · obtain ⟨⟨other, t⟩, hother, rfl⟩ := List.mem_map.mp ((h.serves hroom).terminal_mem hd)
    rw [hlevel, he] at hother
    have hsame : other = side :=
      h.extended.coherent.side_unique (h.extended.keeps_new rfl) (by simp [hc, hother]) hin
    have hnodup := c.nodup_terminals
    rw [hc, List.map_append, List.map_cons, List.nodup_middle] at hnodup
    refine (List.nodup_cons.mp hnodup).1 (List.mem_append_left _ ?_)
    exact hsame ▸ List.mem_map_of_mem hother
  · apply h.forks hroom d hd side
    rwa [hlevel, he]

theorem bus (h : Progress n m c bays before) :
    Progress n m c bays (before ++ [(side, .atBus vl id)]) where
  extended := h.extended
  serves := fun hroom => by
    rw [List.map_append, List.map_singleton]
    exact (h.serves hroom).concat_bus vl id
  forks := h.forks
  room := fun hroom x y node hat =>
    (h.room hroom x y node hat).mono (Nat.sub_le_sub_left (by simp) _)

theorem busbarSection (h : Progress n m c bays before)
    (hc : c.terminals = before ++ (side, .atNode b.voltageLevel b.nodes.equipment) :: later)
    {w : Wiring} (hw : m.inside? b.voltageLevel = some (.nodeBreaker w))
    (hfork : b.nodes.fork = w.nextNode) (hrailed : b.Railed n)
    (hnode : n.HasRoomFor c → n.Unplaced b.voltageLevel b.nodes.equipment)
    (hk : Extended ∅ (laid (bays ++ [b])) {c} n k)
    (hroom : ∀ x more, m.Room x (1 + more) → k.Room x more) :
    Progress n k c (bays ++ [b])
      (before ++ [(side, .atNode b.voltageLevel b.nodes.equipment)]) := by
  have hin : (side, .atNode b.voltageLevel b.nodes.equipment) ∈ c.terminals := by simp [hc]
  have hcount : c.terminals.length - before.length = 1 + later.length := by
    simp [hc, Nat.add_comm]
  have hnew : n.HasRoomFor c → m.Unplaced b.voltageLevel b.nodes.fork := fun hall =>
    hfork ▸ (Nat.add_comm 1 _ ▸ hcount ▸ h.room hall _ _ _ hin).unplaced_nextNode hw
  have hfits : n.HasRoomFor c → b.Fits n := fun hall => by
    obtain ⟨w', hw', -⟩ := h.extended.toWired.wiring_old (Set.notMem_empty _) hw
    exact ⟨hrailed, ⟨w', hw', hnode hall w' hw',
      h.extended.unplaced (Set.notMem_empty _) (hnew hall) w' hw'⟩,
      (hnew hall).ne_of_attached h.extended.coherent (h.extended.keeps_new rfl) hin⟩
  refine ⟨hk, fun hall => ?_, fun hall => ?_, fun hall x vl node hat => ?_⟩
  · rw [List.map_append, List.map_singleton]
    exact (h.serves hall).concat_node (hfits hall) (h.apart hall hc (hnew hall))
  · intro d hd other hother
    rcases List.mem_append.mp hd with hd | hd
    · exact h.forks hall d hd other hother
    · cases List.mem_singleton.mp hd
      exact (hnew hall).ne_of_attached h.extended.coherent (h.extended.keeps_new rfl) hother rfl
  · refine hroom vl _ ((h.room hall x vl node hat).mono ?_)
    rw [hcount, hc]
    simp
    omega

end Progress

/-- Some sides of a connectable and the bays that they have, in order. A side at a
bus has none. -/
inductive Equipped (n : Network) (c : Connectable) :
    List (Side × FeederBay) → List LaidBay → Prop
  | nil : Equipped n c [] []
  | bus {side : Side} {bay : FeederBay} {vl : String} {rest : List (Side × FeederBay)}
    {bays : List LaidBay} (hbus : n.HasBus vl bay.target)
    (hterminal : c.terminal? side = some (.atBus vl bay.target)) (hrest : Equipped n c rest bays) :
    Equipped n c ((side, bay) :: rest) bays
  | busbarSection {side : Side} {bay : FeederBay} {t : BusbarSection} {b : LaidBay}
    {rest : List (Side × FeederBay)} {bays : List LaidBay}
    (htarget : n.busbarSections[bay.target]? = some t)
    (hplan : b.toBayPlan = n.bayPlan t.voltageLevel t.rail b.nodes)
    (hterminal : c.terminal? side = some (.atNode t.voltageLevel b.nodes.equipment))
    (hrest : Equipped n c rest bays) : Equipped n c ((side, bay) :: rest) (b :: bays)

theorem Equipped.withPosition {given : List (Side × FeederBay)} (h : Equipped n c given bays)
    (position : Option FeederPosition) : Equipped n (c.withPosition position) given bays := by
  have hsame : ∀ side, (c.withPosition position).terminal? side = c.terminal? side := fun side => by
    rw [Connectable.terminal?, c.terminals_withPosition, Connectable.terminal?]
  induction h with
  | nil => exact .nil
  | bus hbus hterminal _ ih => exact .bus hbus (hsame _ ▸ hterminal) ih
  | busbarSection htarget hplan hterminal _ ih =>
    exact .busbarSection htarget hplan (hsame _ ▸ hterminal) ih

/-- The sides of a connectable that have no bays yet, after those that have. Each
has a terminal that its junction admits. -/
structure Awaits (n : Network) (c : Connectable) (before after : List (Side × Terminal))
    (sides : List RankedSide) : Prop where
  terminals_eq : c.terminals = before ++ after
  sides_eq : after.map (·.1) = sides.map (·.side)
  admits : ∀ r ∈ sides, ∃ u, c.terminal? r.side = some u ∧
    r.junction.Admits n c.terminals.length u
  junctions : ∀ r ∈ sides, n.junction r.bay.target = .ok r.junction

theorem Awaits.next {before after : List (Side × Terminal)} {r : RankedSide}
    {rest : List RankedSide} (h : Awaits n c before after (r :: rest)) :
    ∃ u later, after = (r.side, u) :: later ∧ c.terminal? r.side = some u ∧
      r.junction.Admits n c.terminals.length u ∧ n.junction r.bay.target = .ok r.junction ∧
      Awaits n c (before ++ [(r.side, u)]) later rest := by
  obtain ⟨hc, hafter, hadmits, hjunctions⟩ := h
  obtain ⟨⟨u, hu, hadmit⟩, hadmits⟩ := List.forall_mem_cons.mp hadmits
  obtain ⟨hjunction, hjunctions⟩ := List.forall_mem_cons.mp hjunctions
  obtain ⟨⟨side, v⟩, later, rfl, hside, hlater⟩ := List.map_eq_cons_iff.mp hafter
  have hside : side = r.side := hside
  subst hside
  have heq : v = u := by
    have hfound : c.terminal? r.side = some v :=
      Connectable.terminal?_eq_some_iff.mpr (by simp [hc])
    exact Option.some.inj (hfound.symm.trans hu)
  subst heq
  exact ⟨v, later, rfl, hu, hadmit, hjunction, by simp [hc], hlater, hadmits, hjunctions⟩

theorem Awaits.admits_of_mem {sides : List RankedSide} (h : Awaits n c [] c.terminals sides)
    {side : Side} {u : Terminal} (hu : (side, u) ∈ c.terminals) :
    ∃ r ∈ sides, r.junction.Admits n c.terminals.length u := by
  have hside : side ∈ sides.map (·.side) := h.sides_eq ▸ List.mem_map_of_mem hu
  obtain ⟨r, hr, rfl⟩ := List.mem_map.mp hside
  obtain ⟨v, hv, hadmits⟩ := h.admits r hr
  cases (Connectable.terminal?_eq_some_iff.mpr hu).symm.trans hv
  exact ⟨r, hr, hadmits⟩

/-- Where there is room, the sides are at nodes that are new. -/
theorem Awaits.seats {sides : List RankedSide} (h : Awaits n c [] c.terminals sides)
    (hroom : n.HasRoomFor c) : ∀ x ∈ c.terminals, n.Seats x.2 := by
  rintro ⟨side, u⟩ hu vl node w rfl hw hplaced
  obtain ⟨r, -, hadmits⟩ := h.admits_of_mem hu
  obtain ⟨-, w', i, hw', hi, rfl⟩ := hadmits.atNode
  exact absurd hplaced ((hroom side vl _ hu).unplaced (by omega) hw' w hw)

theorem Awaits.start {sides : List RankedSide} (h : Awaits n c [] c.terminals sides)
    (hk : Extended ∅ ∅ {c} n k) : Progress n k c [] [] := by
  refine ⟨by rwa [laid_nil], fun _ => .nil n, by simp, fun hroom side vl node hat => ?_⟩
  refine hk.room (Set.notMem_empty vl) (Nat.two_mul _ ▸ hroom side vl node hat) ?_
  intro w hw y hy
  obtain ⟨⟨id, other⟩, x, hx, -, hmem⟩ := hy.resolve_left (by simp [switchesAt])
  obtain rfl : c = x := Eq.symm hx
  obtain ⟨r, -, hadmits⟩ := h.admits_of_mem hmem
  obtain ⟨-, w', i, hw', hi, hnumber⟩ := hadmits.atNode
  cases hw.symm.trans hw'
  have hlt : i < 2 * c.terminals.length := by omega
  dsimp only at hnumber
  rw [hnumber, (hroom _ _ _ hmem w hw).toNat_add hlt]
  exact Nat.add_lt_add_left hi _

theorem Awaits.nodup {before after : List (Side × Terminal)} {sides : List RankedSide}
    (h : Awaits n c before after sides) : (sides.map (·.side)).Nodup := by
  have hnodup := c.nodup_terminals
  rw [h.terminals_eq, List.map_append] at hnodup
  exact h.sides_eq ▸ hnodup.of_append_right

theorem createBay_next {before later : List (Side × Terminal)}
    (h : Progress n s.network c bays before) {r : RankedSide} {number : Node}
    (hc : c.terminals = before ++ (r.side, .atNode vl number) :: later)
    (hupcoming : n.Upcoming vl c.terminals.length number) (hr : n.HasRail vl ⟨id, node⟩)
    {naming : NamingStrategy} {sided : Bool} {feeder : Option Feeder}
    (hok : createBay naming c.id sided r id vl node s = .ok feeder t) :
    ∃ b : LaidBay, b.nodes.equipment = number ∧
      b.toBayPlan = n.bayPlan vl ⟨id, node⟩ b.nodes ∧
      Progress n t.network c (bays ++ [b]) (before ++ [(r.side, .atNode vl number)]) := by
  have hat : (r.side, .atNode vl number) ∈ c.terminals := by simp [hc]
  have hu := Connectable.terminal?_eq_some_iff.mpr hat
  obtain ⟨b, w, hw, hplan, ht⟩ := extended_createBay h.extended hu hok
  obtain ⟨rfl, rfl, hfork⟩ : b.voltageLevel = vl ∧ b.nodes.equipment = number ∧
      b.nodes.fork = w.nextNode := by simp [hplan, bayPlan]
  have hnode : n.HasRoomFor c → n.Unplaced b.voltageLevel b.nodes.equipment := fun hroom => by
    obtain ⟨w', i, hw', hi, he⟩ := hupcoming
    exact he ▸ (hroom _ _ _ hat).unplaced (by omega) hw'
  have hroom : ∀ x more, s.network.Room x (1 + more) → t.network.Room x more := fun x more =>
    room_createBay h.extended.coherent (h.extended.keeps_new rfl)
      (h.extended.hasRail_iff.mpr hr) hu hok
  have hrailed : b.Railed n := hplan ▸ h.extended.base.railed_bayPlan hr _
  exact ⟨b, rfl, by rwa [← hfork] at hplan, h.busbarSection hc hw hfork hrailed hnode ht hroom⟩

/-- The next side gets its bay, if it is at a busbar section, and the feeder that it
gains. -/
theorem createBays_next {before after : List (Side × Terminal)} {r : RankedSide}
    {rest : List RankedSide} (h : Progress n s.network c bays before)
    (hsides : Awaits n c before after (r :: rest)) (hc : c.position = none)
    {naming : NamingStrategy} {sided : Bool} {position position' : FeederPosition}
    (hok : createBays naming c.id sided position (r :: rest) s = .ok position' t) :
    ∃ (w : Session) (own : List LaidBay) (before' later : List (Side × Terminal))
      (feeder : Option Feeder),
      Progress n w.network c (bays ++ own) before' ∧ Awaits n c before' later rest ∧
      (∀ {others more}, Equipped n c others more →
        Equipped n c ((r.side, r.bay) :: others) (own ++ more)) ∧
      (∀ f, feeder = some f ↔ r.Gains n c.id f) ∧
      createBays naming c.id sided (feeder.elim position (position.setFeeder · r.side)) rest w =
        .ok position' t := by
  obtain ⟨u, later, rfl, hu, hadmit, hjunction, hlater⟩ := hsides.next
  rw [createBays] at hok
  cases hj : r.junction with
  | bus id vl =>
    rw [hj] at hok hadmit hjunction
    cases hadmit
    obtain ⟨_, _, htold, hrun⟩ := bind_eq_ok.mp hok
    cases Run.emit_eq_ok.mp htold
    obtain ⟨_, he, hbus⟩ | ⟨_, -, he⟩ := h.extended.base.junction_cases hjunction
    · cases he
      refine ⟨_, [], _, later, none, ?_, hlater, fun hrest => .bus hbus hu hrest, ?_, hrun⟩
      · rw [List.append_nil]
        exact h.bus
      · simp [RankedSide.Gains, hj]
    · cases he
  | busbarSection id vl node =>
    rw [hj] at hok hadmit hjunction
    obtain ⟨number, rfl, hupcoming⟩ := hadmit
    obtain ⟨feeder, w, hbay, hrun⟩ := bind_eq_ok.mp hok
    obtain ⟨_, he, -⟩ | ⟨x, hx, he⟩ := h.extended.base.junction_cases hjunction
    · cases he
    cases he
    have hid : x.id = r.bay.target := h.extended.base.connectable_id _ (.busbarSection x) hx
    have hr : n.HasRail x.voltageLevel ⟨r.bay.target, x.node⟩ := ⟨x, hx, rfl, rfl⟩
    obtain ⟨b, rfl, hplan, hw⟩ := createBay_next h hsides.terminals_eq hupcoming hr hbay
    have hgains := feeder_of_createBay h.extended hc hj hu hbay
    have hequips : ∀ {others more}, Equipped n c others more →
        Equipped n c ((r.side, r.bay) :: others) (b :: more) :=
      .busbarSection hx (hplan.trans (by rw [BusbarSection.rail, hid])) hu
    refine ⟨w, [b], _, later, feeder, hw, hlater, hequips, hgains, ?_⟩
    cases feeder <;> exact hrun

/-- The sides get their bays in turn, and the feeders that they gain. -/
theorem progress_createBays {before after : List (Side × Terminal)} {sides : List RankedSide}
    (h : Progress n s.network c bays before) (hsides : Awaits n c before after sides)
    (hc : c.position = none) {naming : NamingStrategy} {sided : Bool}
    {position position' : FeederPosition} (hfree : ∀ r ∈ sides, position.feeder r.side = none)
    (hok : createBays naming c.id sided position sides s = .ok position' t) :
    (∃ more, Progress n t.network c (bays ++ more) c.terminals ∧
      Equipped n c (sides.map fun r => (r.side, r.bay)) more) ∧
      ∀ x f, position'.feeder x = some f ↔
        position.feeder x = some f ∨ ∃ r ∈ sides, r.side = x ∧ r.Gains n c.id f := by
  -- `before` takes up one side of `after` at each step, with its bay or its bus.
  induction sides generalizing bays before after position s with
  | nil =>
    obtain ⟨rfl, rfl⟩ := pure_eq_ok.mp hok
    have hafter : after = [] := List.map_eq_nil_iff.mp hsides.sides_eq
    have hterminals := hsides.terminals_eq
    rw [hafter, List.append_nil] at hterminals
    refine ⟨⟨[], ?_, .nil⟩, by simp⟩
    rwa [List.append_nil, hterminals]
  | cons r rest ih =>
    obtain ⟨hr, hrest⟩ := List.forall_mem_cons.mp hfree
    obtain ⟨hnot, -⟩ := List.nodup_cons.mp hsides.nodup
    obtain ⟨w, own, _, _, feeder, hnext, hlater, hequips, hgains, hrun⟩ :=
      createBays_next h hsides hc hok
    have hsame : ∀ x, (feeder.elim position (position.setFeeder · r.side)).feeder x =
        if x = r.side then feeder else position.feeder x := by
      intro x
      cases feeder with
      | none =>
        split
        next hx => rw [hx]; exact hr
        next => rfl
      | some f => simp
    have hfree : ∀ q ∈ rest,
        (feeder.elim position (position.setFeeder · r.side)).feeder q.side = none := by
      intro q hq
      have hne : q.side ≠ r.side := fun hside => hnot (List.mem_map.mpr ⟨q, hq, hside⟩)
      rw [hsame, if_neg hne]
      exact hrest q hq
    obtain ⟨⟨more, hmore, hequipped⟩, hfeeders⟩ := ih hnext hlater hfree hrun
    rw [List.append_assoc] at hmore
    refine ⟨⟨_, hmore, hequips hequipped⟩, fun x f => ?_⟩
    rw [hfeeders, hsame, List.exists_mem_cons_iff, ← hgains]
    split
    next hx => simp [hx, hr]
    next hx => simp [Ne.symm hx]

/-- The sides of a draft have terminals that the junctions found for them admit, and
are ranked where their orders can be used. -/
structure Ready (n : Network) (d : ConnectableDraft) (given : List (Side × FeederBay))
    (sides : List RankedSide) : Prop where
  sides_eq : sides.map (·.side) = d.sides
  given_eq : sides.map (fun r => (r.side, r.bay)) = given
  admits : ∀ r ∈ sides, ∃ u, d.terminal? r.side = some u ∧
    r.junction.Admits n d.sides.length u
  found : ∀ r ∈ sides, r.Found n
  ranked_iff : ∀ r ∈ sides, r.ranked = true ↔ r.Usable n

theorem Ready.awaits {d : ConnectableDraft} {given : List (Side × FeederBay)}
    {sides : List RankedSide} (h : Ready n d given sides)
    (hsides : c.terminals.map (·.1) = d.sides)
    (hterminals : ∀ side, c.terminal? side = d.terminal? side) :
    Awaits n c [] c.terminals sides where
  terminals_eq := rfl
  sides_eq := hsides.trans h.sides_eq.symm
  admits := by
    have hcount : c.terminals.length = d.sides.length := by rw [← hsides, List.length_map]
    simpa only [hterminals, hcount] using h.admits
  junctions := fun r hr => (h.found r hr).junction_eq

theorem Ready.hasRoomFor {m : FeederBays} (hlen : m.bays.length = m.draft.sides.length)
    {d : ConnectableDraft} {sides : List RankedSide}
    (h : Ready n d (m.draft.sides.zip m.bays) sides)
    (hn : n.Coherent False) (hc : Awaits n c [] c.terminals sides) (hroom : m.HasRoom n) :
    n.HasRoomFor c := by
  intro side vl node hat
  obtain ⟨r, hr, hadmits⟩ := hc.admits_of_mem hat
  obtain ⟨⟨id, x, hj⟩, -⟩ := hadmits.atNode
  have hgiven : (r.side, r.bay) ∈ m.draft.sides.zip m.bays := h.given_eq ▸ List.mem_map_of_mem hr
  have hcount : c.terminals.length = m.draft.sides.length := by
    rw [← List.length_map (·.1), hc.sides_eq, List.length_map,
      ← List.length_map (fun r : RankedSide => (r.side, r.bay)), h.given_eq, List.length_zip, hlen,
      Nat.min_self]
  obtain ⟨_, he, -⟩ | ⟨b, hb, he⟩ := hn.junction_cases (hj ▸ hc.junctions r hr)
  · cases he
  · cases he
    exact hcount ▸ hroom r.bay (List.of_mem_zip hgiven).2 b hb

theorem Ready.gains_iff {d : ConnectableDraft} {given : List (Side × FeederBay)}
    {sides : List RankedSide} (h : Ready n d given sides) (hn : n.Coherent False) {side : Side}
    {f : Feeder} : (∃ r ∈ sides, r.side = side ∧ r.Gains n id f) ↔
      ∃ bay t o, (side, bay) ∈ given ∧ n.Ranks bay t o ∧ f = bay.feeder id := by
  constructor
  · rintro ⟨r, hr, rfl, hgains⟩
    obtain ⟨t, o, hranks⟩ := (r.gains_iff hn (h.found r hr) (h.ranked_iff r hr)).mp hgains
    exact ⟨r.bay, t, o, h.given_eq ▸ List.mem_map_of_mem hr, hranks⟩
  · rintro ⟨bay, t, o, hgiven, hranks⟩
    rw [← h.given_eq] at hgiven
    obtain ⟨r, hr, he⟩ := List.mem_map.mp hgiven
    cases he
    exact ⟨r, hr, rfl, (r.gains_iff hn (h.found r hr) (h.ranked_iff r hr)).mpr ⟨t, o, hranks⟩⟩

/-- Finding the junctions and choosing the terminals makes all sides ready. -/
theorem ready_of_ok {m : FeederBays} (hlen : m.bays.length = m.draft.sides.length)
    (h : s.network.Coherent False) {found : List BaySide} {u : Session}
    (hfind : findSides (m.draft.sides.zip m.bays) s = .ok found u) {d : ConnectableDraft}
    {sides : List RankedSide}
    (hchoose : chooseTerminals m.force ∅ m.draft found u = .ok (d, sides) t) :
    t.network = s.network ∧ d.sides = m.draft.sides ∧
      Ready s.network d (m.draft.sides.zip m.bays) sides := by
  have hfound : Run.Traced False (fun _ => False) _ s _ :=
    traced_findSides (m.draft.sides.zip m.bays)
  obtain ⟨hu, hgiven, hjunctions⟩ := hfound.post_of_ok h hfind
  obtain ⟨hin, hnodup⟩ := sides_of_found hgiven
  have hcount : 0 + found.length ≤ m.draft.sides.length := by
    rw [Nat.zero_add, ← List.length_map (fun x => (x.side, x.bay)), hgiven, List.length_zip]
    exact Nat.min_le_left _ _
  have hchosen : Run.Traced False (fun _ => False) (chooseTerminals m.force ∅ m.draft found) u _ :=
    traced_chooseTerminals m.force m.draft found hin hnodup hcount (.empty _ _)
  obtain ⟨ht, hranks, hdraft, hadmits, -, hranked⟩ := hchosen.post_of_ok (hu ▸ h) hchoose
  rw [hu] at ht hadmits hranked
  have hmem : ∀ r ∈ sides, r.toBaySide ∈ found := fun r hr =>
    hranks ▸ List.mem_map_of_mem hr
  have hgiven : sides.map (fun r => (r.side, r.bay)) = m.draft.sides.zip m.bays := by
    rw [← hgiven, ← hranks, List.map_map]
    rfl
  have hsides : sides.map (·.side) = m.draft.sides := by
    rw [← List.map_fst_zip (Nat.le_of_eq hlen.symm), ← hgiven, List.map_map]
    rfl
  exact ⟨ht, hdraft, hsides.trans hdraft.symm, hgiven, fun r hr => hdraft ▸ hadmits _ (hmem r hr),
    fun r hr => hjunctions _ (hmem r hr), hranked⟩

/-- The second network is the first one with a connectable and its bays besides. The
sides at busbar sections have bays, and feeders where their bays rank. -/
structure Furnishes (m : FeederBays) (n k : Network) (c : Connectable) (bays : List LaidBay) :
    Prop where
  extended : Extended ∅ (laid bays) {c} n k
  serves : m.HasRoom n → n.Serves bays (c.terminals.map (·.2))
  sides_eq : c.terminals.map (·.1) = m.draft.sides
  equipped : Equipped n c (m.draft.sides.zip m.bays) bays
  feeder_iff : ∀ side f, c.feeder? side = some f ↔
    ∃ bay t o, (side, bay) ∈ m.draft.sides.zip m.bays ∧ n.Ranks bay t o ∧ f = bay.feeder c.id
  feeder_of_position : c.position.isSome → ∃ side f, c.feeder? side = some f

/-- A connectable is created with its bays, and nothing else. -/
theorem furnishes_of_ok {m : FeederBays} (hlen : m.bays.length = m.draft.sides.length)
    (h : s.network.Coherent False) {naming : NamingStrategy} (hok : m.steps naming s = .ok () t) :
    ∃ (c : Connectable) (bays : List LaidBay), m.Furnishes s.network t.network c bays := by
  obtain ⟨found, s1, hfind, hok⟩ := bind_eq_ok.mp hok
  obtain ⟨⟨d, sides⟩, s2, hchoose, hok⟩ := bind_eq_ok.mp hok
  obtain ⟨id, s3, henter, hok⟩ := bind_eq_ok.mp hok
  obtain ⟨k, hcreate, rfl⟩ := Run.edit_eq_ok.mp henter
  simp only [bind_eq_ok, Run.network_eq_ok] at hok
  obtain ⟨_, _, ⟨rfl, rfl⟩, hok⟩ := hok
  obtain ⟨hs2, hdraft, hready⟩ := ready_of_ok hlen h hfind hchoose
  have hrefl : Extended ∅ ∅ ∅ s.network s2.network := hs2.symm ▸ Extended.refl h
  obtain ⟨c, rfl, hposition, hsides, hterminals, hentered⟩ :=
    ConnectableDraft.extended_create hrefl hcreate
  rw [insert_empty_eq] at hentered
  split at hok
  · simp only [bind_eq_ok, Run.refuse_eq_ok, false_and, and_false, exists_false] at hok
  obtain ⟨_, s4, htold, hok⟩ := bind_eq_ok.mp hok
  cases Run.emit_eq_ok.mp htold
  obtain ⟨position, s5, hbays, hok⟩ := bind_eq_ok.mp hok
  have hawaits := hready.awaits hsides hterminals
  obtain ⟨⟨bays, ⟨hlaid, hserves, -, -⟩, hequipped⟩, hfeeders⟩ :=
    progress_createBays (s := Session.tell ⟨k, s2.events⟩ _) (hawaits.start hentered) hawaits
      hposition (fun _ _ => FeederPosition.feeder_empty _) hbays
  rw [hready.given_eq] at hequipped
  have hserves := fun hroom => hserves (hready.hasRoomFor hlen h hawaits hroom)
  have hfeeders : ∀ side f, position.feeder side = some f ↔
      ∃ bay t o, (side, bay) ∈ m.draft.sides.zip m.bays ∧ s.network.Ranks bay t o ∧
        f = bay.feeder c.id := by
    simp only [hfeeders, FeederPosition.feeder_empty, reduceCtorEq, false_or, hready.gains_iff h,
      implies_true]
  split at hok
  next hfull =>
    obtain ⟨k, hplace, rfl⟩ := Run.edit_eq_ok.mp hok
    have hplaced := hlaid.setFeederPosition rfl hplace
    rw [Set.sdiff_self, insert_empty_eq] at hplaced
    have hfeeder : ∀ side,
        (c.withPosition (some position)).feeder? side = position.feeder side := by
      intro side
      rw [Connectable.feeder?, c.position_withPosition (hlaid.free c rfl), Option.bind_some]
    refine ⟨c.withPosition (some position), bays, hplaced, fun hroom => ?_, ?_, ?_, ?_, fun _ => ?_⟩
    · rw [c.terminals_withPosition]
      exact hserves hroom
    · rw [c.terminals_withPosition, hsides, hdraft]
    · exact hequipped.withPosition _
    · intro side f
      rw [hfeeder, hfeeders, c.id_withPosition]
    · have hsome : ∃ side, position.feeder side ≠ none := by
        simpa [FeederPosition.isEmpty_iff, ← Bool.not_eq_true] using hfull
      obtain ⟨side, hside⟩ := hsome
      obtain ⟨f, hf⟩ := Option.ne_none_iff_exists'.mp hside
      exact ⟨side, f, (hfeeder side).trans hf⟩
  next hempty =>
    obtain ⟨-, rfl⟩ := pure_eq_ok.mp hok
    have hnone : ∀ side, position.feeder side = none := by
      simpa [FeederPosition.isEmpty_iff] using hempty
    refine ⟨c, bays, hlaid, hserves, hsides.trans hdraft, hequipped, fun side f => ?_, ?_⟩
    · rw [← hfeeders, Connectable.feeder?, hposition, hnone, Option.bind_none]
    · rw [hposition]
      exact fun h => absurd h (by simp)

theorem extended_steps {m : FeederBays} (hlen : m.bays.length = m.draft.sides.length)
    (h : s.network.Coherent False) (hroom : m.HasRoom s.network) {naming : NamingStrategy}
    (hok : m.steps naming s = .ok () t) :
    ∃ (c : Connectable) (bays : List LaidBay), s.network.Serves bays (c.terminals.map (·.2)) ∧
      Extended ∅ (laid bays) {c} s.network t.network := by
  obtain ⟨c, bays, hfurnishes⟩ := furnishes_of_ok hlen h hok
  exact ⟨c, bays, hfurnishes.serves hroom, hfurnishes.extended⟩

end FeederBays

end Switchyard
