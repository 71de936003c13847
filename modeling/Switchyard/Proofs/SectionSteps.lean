import Switchyard.Proofs.Rooms
import Switchyard.Proofs.Sections
import Switchyard.Proofs.Unfailing

namespace Switchyard

open Std Network Run

variable {n m : Network} {s t : Session} {naming : NamingStrategy} {vl base id : String}

theorem Network.Room.lt_of_rail {count : Nat} (h : n.Room vl count) (hn : n.Coherent False)
    {r : Rail} (hr : n.HasRail vl r) : r.node.toNat + count < UInt32.size := by
  obtain ⟨w, hw⟩ := hr.wiring hn
  exact (h w hw).lt_of_placed ((hn.sound _ w hw).placed_of_referenced (hn.referenced_rail hr hw))

namespace Run

theorem createSwitch_eq_ok {kind : SwitchKind} {a b : Node} {isOpen fictitious : Bool}
    (h : createSwitch vl kind id a b isOpen fictitious s = .ok () t) :
    ∃ w sw, s.network.inside? vl = some (.nodeBreaker w) ∧ a ≠ b ∧ sw.id ∉ s.network.index ∧
      sw.node1 = a ∧ sw.node2 = b ∧
      t.network = (s.network.register sw.id ⟨.switch, some vl⟩).setTopology vl
        (.nodeBreaker (w.addSwitch sw)) := by
  simp only [createSwitch, bind_eq_ok, edit_eq_ok, emit_eq_ok] at h
  obtain ⟨given, _, ⟨m, hcreate, rfl⟩, rfl⟩ := h
  obtain ⟨w, hw, hne, hid, rfl⟩ := SwitchDraft.create_eq_ok hcreate
  exact ⟨w, SwitchDraft.switch _ given, hw, hne, hid, rfl, rfl, rfl⟩

/-- A section link is one switch, or three in a row over two new nodes. -/
theorem createSectionLink_eq_ok {kind : SwitchKind} {a b : Node} {fictitious : Bool}
    (h : createSectionLink naming vl base kind a b fictitious s = .ok () t) :
    (∃ id, createSwitch vl .disconnector id a b false fictitious s = .ok () t) ∨
      ∃ w id1 id2 id3 u v, kind = .breaker ∧ s.network.inside? vl = some (.nodeBreaker w) ∧
        createSwitch vl .disconnector id1 a w.nextNode false fictitious s = .ok () u ∧
        createSwitch vl .breaker id2 w.nextNode (w.nextNode + 1) false fictitious u =
          .ok () v ∧
        createSwitch vl .disconnector id3 (w.nextNode + 1) b false fictitious v = .ok () t := by
  simp only [createSectionLink] at h
  split at h
  next hkind =>
    simp only [bind_eq_ok, nextNode_eq_ok] at h
    obtain ⟨_, _, ⟨w, hw, rfl, rfl⟩, _, u, h1, _, v, h2, h3⟩ := h
    exact Or.inr ⟨w, _, _, _, u, v, hkind, hw, h1, h2, h3⟩
  next => exact Or.inl ⟨_, h⟩

theorem busbarSections_createSwitch {kind : SwitchKind} {a b : Node} {isOpen fictitious : Bool}
    (h : createSwitch vl kind id a b isOpen fictitious s = .ok () t) :
    t.network.busbarSections = s.network.busbarSections := by
  obtain ⟨w, sw, -, -, -, -, -, ht⟩ := createSwitch_eq_ok h
  rw [ht]
  rfl

theorem busbarSections_createSectionLink {kind : SwitchKind} {a b : Node} {fictitious : Bool}
    (h : createSectionLink naming vl base kind a b fictitious s = .ok () t) :
    t.network.busbarSections = s.network.busbarSections := by
  obtain ⟨id, h⟩ | ⟨w, id1, id2, id3, u, v, -, -, h1, h2, h3⟩ := createSectionLink_eq_ok h
  · exact busbarSections_createSwitch h
  · rw [busbarSections_createSwitch h3, busbarSections_createSwitch h2,
      busbarSections_createSwitch h1]

/-- A section link of the kind between the two nodes, laid in one direction or the other. -/
def Links (naming : NamingStrategy) (vl : String) (kind : SwitchKind) (a b : Node)
    (s t : Session) : Prop :=
  ∃ fictitious, createSectionLink naming vl vl kind a b fictitious s = .ok () t ∨
    createSectionLink naming vl vl kind b a fictitious s = .ok () t

theorem Links.room {kind : SwitchKind} {a b : Node} {count : Nat}
    (h : Links naming vl kind a b s t) (hs : s.network.Coherent False)
    (hroom : s.network.Room vl (count + kind.linkNodes)) (ha : a.toNat + count < UInt32.size)
    (hb : b.toNat + count < UInt32.size) :
    t.network.Coherent False ∧ t.network.Room vl count := by
  obtain ⟨fictitious, h | h⟩ := h
  · exact room_createSectionLink hs hroom ha hb h
  · exact room_createSectionLink hs hroom hb ha h

theorem Links.busbarSections_eq {kind : SwitchKind} {a b : Node}
    (h : Links naming vl kind a b s t) :
    t.network.busbarSections = s.network.busbarSections := by
  obtain ⟨fictitious, h | h⟩ := h
  · exact busbarSections_createSectionLink h
  · exact busbarSections_createSectionLink h

end Run

/-- The switches on the way from a busbar section to its neighbour. -/
def Extension.switches (e : Extension) : List String :=
  (e.neighbour.map (·.switches)).getD []

theorem Extension.mem_switches {e : Extension} :
    id ∈ e.switches ↔ ∃ found, e.neighbour = some found ∧ id ∈ found.switches := by
  cases h : e.neighbour <;> simp [switches, h]

/-- The busbar section is there, and its neighbour is at one. -/
structure Extension.Railed (n : Network) (vl : String) (e : Extension) : Prop where
  rail : n.HasRail vl e.rail
  neighbour : ∀ other, e.neighbour = some other → ∃ r, n.HasRail vl r ∧ r.node = other.node

theorem Extension.Railed.mono {e : Extension} (h : e.Railed n vl)
    (hkept : ∀ r, n.HasRail vl r → m.HasRail vl r) : e.Railed m vl where
  rail := hkept _ h.rail
  neighbour := fun other ho => (h.neighbour other ho).imp fun r hr => hr.imp_left (hkept r)

/-- What the insertion next to a busbar section takes, but for the switches to go. -/
structure Extension.Fits (n : Network) (vl : String) (e : Extension) : Prop
    extends e.Railed n vl where
  placed : n.Placed e.rail.id
  nodup : e.switches.Nodup

/-- The neighbour is the next section on the busbar. -/
def Extension.Finds (e : Extension) (n : Network) (vl : String) (busbarIndex : Int32)
    (next : Option Int32) : Prop :=
  ∀ found, e.neighbour = some found → ∃ j w, next = some j ∧ n.wiring vl = .ok w ∧
    n.neighbour? w e.rail ⟨busbarIndex, j⟩ = some found

namespace SectionInsertion

theorem busbarSections_removeSwitches {ids : List String}
    (h : removeSwitches ids s = .ok () t) :
    t.network.busbarSections = s.network.busbarSections := by
  induction ids generalizing s with
  | nil => rw [(pure_eq_ok.mp h).2]
  | cons id rest ih =>
    simp only [removeSwitches, bind_eq_ok, edit_eq_ok, emit_eq_ok] at h
    obtain ⟨_, _, ⟨m, hremove, rfl⟩, _, _, rfl, h⟩ := h
    obtain ⟨vl, u, -, rfl, -⟩ := Edit.removeSwitch_eq_ok hremove
    exact (ih h).trans rfl

variable (c : SectionInsertion)

/-- The link to the section that a new one is put next to. -/
def near : SectionLink :=
  if c.after then c.left else c.right

/-- The link to the neighbour. -/
def far : SectionLink :=
  if c.after then c.right else c.left

theorem nodeCount_eq : c.nodeCount = 1 + c.near.kind.linkNodes + c.far.kind.linkNodes := by
  unfold nodeCount near far
  split <;> omega

/-- The section index of a new section beside one at the section index. -/
def beside (sectionIndex : Int32) : Int32 :=
  if c.after then sectionIndex + 1 else sectionIndex - 1

/-- The draft of the new section beside one at the position. -/
def draft (naming : NamingStrategy) (vl : String) (p : BusbarPosition) (node : Node) :
    BusbarSectionDraft :=
  { voltageLevel := vl, id := naming.busbarAt vl node, node, name := some (toString node),
    position := some { p with sectionIndex := c.beside p.sectionIndex }, unique := true }

/-- The switches of the way go, then the new section comes, on a new node, with its links
to the section and to the neighbour. -/
theorem insertSection_eq_ok {e : Extension}
    (h : c.insertSection naming vl e s = .ok () t) :
    ∃ u p w id v x, removeSwitches e.switches s = .ok () u ∧
      u.network.busbarSections[e.rail.id]?.bind (·.position) = some p ∧
      u.network.inside? vl = some (.nodeBreaker w) ∧
      (c.draft naming vl p w.nextNode).create u.network = .ok id v.network ∧
      Links naming vl c.near.kind e.rail.node w.nextNode v x ∧
      (e.neighbour = none ∧ t = x ∨ ∃ other, e.neighbour = some other ∧
        Links naming vl c.far.kind w.nextNode other.node x t) := by
  unfold near far
  simp only [insertSection, bind_eq_ok, network_eq_ok] at h
  obtain ⟨_, u, hremove, _, _, ⟨rfl, rfl⟩, h⟩ := h
  cases hp : u.network.busbarSections[e.rail.id]?.bind (·.position) with
  | none =>
    rw [hp] at h
    exact (throw_eq_ok.mp h).elim
  | some p =>
    simp only [hp, bind_eq_ok, nextNode_eq_ok, edit_eq_ok, emit_eq_ok] at h
    obtain ⟨_, _, ⟨w, hw, rfl, rfl⟩, id, _, ⟨m, hcreate, rfl⟩, _, _, rfl, h⟩ := h
    split at h
    next hafter =>
      simp only [bind_eq_ok] at h
      obtain ⟨_, x, hnear, h⟩ := h
      simp only [if_pos hafter]
      refine ⟨u, p, w, id, Session.tell { u with network := m } _, x, hremove, hp, hw, hcreate,
        ⟨_, Or.inl hnear⟩, ?_⟩
      cases hother : e.neighbour with
      | none =>
        rw [hother] at h
        exact Or.inl ⟨rfl, (pure_eq_ok.mp h).2.symm⟩
      | some other =>
        rw [hother] at h
        exact Or.inr ⟨other, rfl, _, Or.inl h⟩
    next hbefore =>
      simp only [bind_eq_ok] at h
      obtain ⟨_, x, hnear, h⟩ := h
      simp only [if_neg hbefore]
      refine ⟨u, p, w, id, Session.tell { u with network := m } _, x, hremove, hp, hw, hcreate,
        ⟨_, Or.inr hnear⟩, ?_⟩
      cases hother : e.neighbour with
      | none =>
        rw [hother] at h
        exact Or.inl ⟨rfl, (pure_eq_ok.mp h).2.symm⟩
      | some other =>
        rw [hother] at h
        exact Or.inr ⟨other, rfl, _, Or.inr h⟩

/-- For each busbar section a neighbour is found that is the next one on its busbar. -/
theorem findNeighbours_eq_ok {next : Option Int32} {rails : List (Rail × Int32)}
    {es : List Extension}
    (h : findNeighbours vl next rails s = .ok es t) :
    s = t ∧ es.map (·.rail) = rails.map (·.1) ∧
      ∀ e ∈ es, ∃ i, (e.rail, i) ∈ rails ∧ e.Finds s.network vl i next := by
  induction rails generalizing s t es with
  | nil =>
    obtain ⟨rfl, rfl⟩ := pure_eq_ok.mp h
    simp
  | cons x rest ih =>
    obtain ⟨rail, i⟩ := x
    have htail : ∀ {e : Extension} {more u}, findNeighbours vl next rest s = .ok more u →
        e.rail = rail → e.Finds s.network vl i next →
        s = u ∧ (e :: more).map (·.rail) = rail :: rest.map (·.1) ∧
          ∀ e' ∈ e :: more, ∃ k, (e'.rail, k) ∈ (rail, i) :: rest ∧
            e'.Finds s.network vl k next := by
      rintro e more u hmore rfl hone
      obtain ⟨rfl, hrails, hall⟩ := ih hmore
      refine ⟨rfl, congrArg (e.rail :: ·) hrails, List.forall_mem_cons.mpr
        ⟨⟨i, List.mem_cons_self, hone⟩, fun e' he' => ?_⟩⟩
      obtain ⟨k, hk, hfinds⟩ := hall e' he'
      exact ⟨k, List.mem_cons_of_mem _ hk, hfinds⟩
    cases next with
    | none =>
      simp only [findNeighbours, bind_eq_ok, pure_eq_ok] at h
      obtain ⟨more, u, hmore, rfl, rfl⟩ := h
      exact htail hmore rfl fun found hnone => by cases hnone
    | some j =>
      simp only [findNeighbours, bind_eq_ok, network_eq_ok, lookUp_eq_ok] at h
      obtain ⟨_, _, ⟨rfl, rfl⟩, w, _, ⟨hw, rfl⟩, h⟩ := h
      cases hfound : s.network.neighbour? w rail ⟨i, j⟩ with
      | none =>
        rw [hfound] at h
        exact (refuse_eq_ok.mp h).elim
      | some found =>
        rw [hfound] at h
        simp only [bind_eq_ok, pure_eq_ok] at h
        obtain ⟨more, u, hmore, rfl, rfl⟩ := h
        refine htail hmore rfl fun found' hsame => ?_
        cases hsame
        exact ⟨j, w, rfl, hw, hfound⟩

theorem makes_shift {A : Change → Prop} (hA : ∀ id p, A (.setBusbarPosition id (some p)))
    (moves : List (String × BusbarPosition)) : Makes A (shift moves) s := by
  induction moves generalizing s with
  | nil => exact makes_pure ()
  | cons move rest ih =>
    obtain ⟨id, p⟩ := move
    let c : Change := .setBusbarPosition id (some { p with sectionIndex := p.sectionIndex + 1 })
    exact (makes_edit (c := c) (Edit.is_return rfl) (hA id _)).bind fun _ _ => ih

theorem makes_shiftSections {A : Change → Prop} (hA : ∀ id p, A (.setBusbarPosition id (some p)))
    (vl : String) (first : Int32) : Makes A (shiftSections vl first) s :=
  Makes.network_bind ((makes_shift hA _).bind fun _ _ => makes_emit _)

theorem room_shiftSections {first : Int32} {count : Nat} {x : String}
    (hs : s.network.Coherent False) (hroom : s.network.Room x count)
    (h : shiftSections vl first s = .ok () t) : t.network.Room x count := by
  have hmade : Makes (Change.Leaves x count) (shiftSections vl first) s :=
    makes_shiftSections (fun _ _ => trivial) vl first
  exact (hmade.ok hs h).room hs hroom

theorem makes_removeSwitches {A : Change → Prop} {ids : List String}
    (hA : ∀ id ∈ ids, A (.removeSwitch id)) : Makes A (removeSwitches ids) s := by
  induction ids generalizing s with
  | nil => exact makes_pure ()
  | cons id rest ih =>
    obtain ⟨hid, hrest⟩ := List.forall_mem_cons.mp hA
    refine (makes_edit (c := .removeSwitch id) (Edit.is_return rfl) hid).bind fun _ _ => ?_
    exact (makes_emit _).bind fun _ _ => ih hrest

theorem room_removeSwitches {ids : List String} {count : Nat} (hs : s.network.Coherent False)
    (hroom : s.network.Room vl count) (h : removeSwitches ids s = .ok () t) :
    t.network.Coherent False ∧ t.network.Room vl count := by
  have hpath := (makes_removeSwitches (A := Change.Leaves vl count) fun _ _ => trivial).ok hs h
  exact ⟨hpath.coherent hs, hpath.room hs hroom⟩

theorem room_createSection {p : BusbarPosition} {w : Wiring} {count : Nat} (hn : n.Coherent False)
    (hw : n.inside? vl = some (.nodeBreaker w)) (hroom : n.Room vl (count + 1))
    (h : (c.draft naming vl p w.nextNode).create n = .ok id m) :
    m.Coherent False ∧ m.Room vl count := by
  have hchange : (c.draft naming vl p w.nextNode).create.Is
      (.addBusbarSection (c.draft naming vl p w.nextNode)) := Edit.is_create rfl
  obtain ⟨_, hperform⟩ := hchange.ok h
  refine ⟨Change.coherent_of_ok _ rfl hn hperform,
    Change.room_of_ok hn ?_ hperform (hroom.mono (Nat.le_succ _))⟩
  exact fun _ => (hroom w hw).nextNode_add_lt

/-- A new section takes up its share of the room, and so does each of its links. -/
theorem insertSection_room {e : Extension} {count : Nat} (hs : s.network.Coherent False)
    (he : e.Railed s.network vl) (hroom : s.network.Room vl (count + c.nodeCount))
    (h : c.insertSection naming vl e s = .ok () t) :
    ∃ u p w id v x, removeSwitches e.switches s = .ok () u ∧
      u.network.inside? vl = some (.nodeBreaker w) ∧ w.nextNode ∉ w.places ∧
      (c.draft naming vl p w.nextNode).create u.network = .ok id v.network ∧
      Links naming vl c.near.kind e.rail.node w.nextNode v x ∧
      v.network.Room vl c.near.kind.linkNodes ∧
      (e.neighbour = none ∧ t = x ∨ ∃ other, e.neighbour = some other ∧
        Links naming vl c.far.kind w.nextNode other.node x t ∧
        x.network.Room vl c.far.kind.linkNodes) ∧ t.network.Room vl count := by
  have hrail := hroom.lt_of_rail hs he.rail
  have hneighbour : ∀ other, e.neighbour = some other →
      other.node.toNat + (count + c.nodeCount) < UInt32.size := fun other ho => by
    obtain ⟨r, hr, hnode⟩ := he.neighbour other ho
    exact hnode ▸ hroom.lt_of_rail hs hr
  obtain ⟨u, p, w, id, v, x, hremove, -, hw, hcreate, hnear, hlast⟩ := c.insertSection_eq_ok h
  obtain ⟨hu, hroom⟩ := room_removeSwitches hs hroom hremove
  rw [c.nodeCount_eq, show count + (1 + c.near.kind.linkNodes + c.far.kind.linkNodes) =
    count + c.far.kind.linkNodes + c.near.kind.linkNodes + 1 by omega]
    at hroom hrail hneighbour
  have hnode := (hroom w hw).nextNode_add_lt
  obtain ⟨hv, hroom'⟩ := c.room_createSection hu hw hroom hcreate
  obtain ⟨hx, hroom''⟩ := hnear.room hv hroom' (by omega) (by omega)
  refine ⟨u, p, w, id, v, x, hremove, hw, hroom.unplaced_nextNode hw w hw, hcreate, hnear,
    hroom'.mono (Nat.le_add_left _ _), ?_⟩
  rcases hlast with ⟨hnone, rfl⟩ | ⟨other, hother, hfar⟩
  · exact ⟨Or.inl ⟨hnone, rfl⟩, hroom''.mono (Nat.le_add_right _ _)⟩
  · have hend := hneighbour other hother
    exact ⟨Or.inr ⟨other, hother, hfar, hroom''.mono (Nat.le_add_left _ _)⟩,
      (hfar.room hx hroom'' (by omega) (by omega)).2⟩

theorem room_insertSection {e : Extension} {count : Nat} (hs : s.network.Coherent False)
    (he : e.Railed s.network vl) (hroom : s.network.Room vl (count + c.nodeCount))
    (h : c.insertSection naming vl e s = .ok () t) : t.network.Room vl count := by
  obtain ⟨_, _, _, _, _, _, -, -, -, -, -, -, -, hleft⟩ := c.insertSection_room hs he hroom h
  exact hleft

/-- The neighbours are found first. Then the sections that are in the way are moved on,
and the new ones come. -/
theorem steps_eq_ok (h : c.steps naming s = .ok () t) :
    ∃ b reference es u, s.network.busbarSections[c.busbarSection]? = some b ∧
      b.position = some reference ∧
      (∀ x ∈ s.network.busbarSectionsIn b.voltageLevel, x.position.isSome = true) ∧
      findNeighbours b.voltageLevel
        (c.nextSection ((s.network.placedSections b.voltageLevel).map (·.2.sectionIndex))
          reference.sectionIndex) (c.extended s.network b reference) s = .ok es s ∧
      (match c.firstShifted
          (c.nextSection ((s.network.placedSections b.voltageLevel).map (·.2.sectionIndex))
            reference.sectionIndex) reference.sectionIndex with
        | some first => shiftSections b.voltageLevel first s = .ok () u
        | none => u = s) ∧
      c.insertSections naming b.voltageLevel es u = .ok () t := by
  unfold steps at h
  dsimp only at h
  split at h
  · simp only [bind_eq_ok, refuse_eq_ok, false_and, exists_false] at h
  split at h
  · simp only [bind_eq_ok, refuse_eq_ok, false_and, exists_false] at h
  simp only [bind_eq_ok, network_eq_ok] at h
  obtain ⟨b, _, hfind, _, _, ⟨rfl, rfl⟩, h⟩ := h
  obtain ⟨hb, rfl⟩ := busbarSection_eq_ok hfind
  cases hall : (s.network.busbarSectionsIn b.voltageLevel).all (·.position.isSome) with
  | false =>
    rw [hall] at h
    cases hp : b.position <;> rw [hp] at h <;> exact (refuse_eq_ok.mp h).elim
  | true =>
    cases hp : b.position with
    | none =>
      rw [hp] at h
      exact (refuse_eq_ok.mp h).elim
    | some reference =>
      rw [hall, hp] at h
      simp only [bind_eq_ok] at h
      obtain ⟨es, _, hes, h⟩ := h
      obtain ⟨rfl, -⟩ := findNeighbours_eq_ok hes
      have hall : ∀ x ∈ s.network.busbarSectionsIn b.voltageLevel, x.position.isSome = true :=
        List.all_eq_true.mp hall
      refine ⟨b, reference, es, ?_⟩
      cases hfirst : c.firstShifted
          (c.nextSection ((s.network.placedSections b.voltageLevel).map (·.2.sectionIndex))
            reference.sectionIndex) reference.sectionIndex with
      | none =>
        rw [hfirst] at h
        exact ⟨s, hb, hp, hall, hes, rfl, h⟩
      | some first =>
        simp only [hfirst, bind_eq_ok] at h
        obtain ⟨_, u, hshift, h⟩ := h
        exact ⟨u, hb, hp, hall, hes, hshift, h⟩

end SectionInsertion

end Switchyard
