import Switchyard.Modification
import Switchyard.Proofs.Effects
import Switchyard.Proofs.Growing

namespace Switchyard

open Std Network

variable {n m : Network} {vl : String} {count : Nat}

theorem Wiring.Sound.places_removeSwitch? {w u : Wiring} (h : w.Sound) {id : String}
    (hu : w.removeSwitch? id = some u) : ∀ node ∈ u.places, node ∈ w.places := by
  have hid : id ∈ w.switches := by
    by_contra hno
    simp [Wiring.removeSwitch?, ExtTreeMap.getElem?_eq_none hno] at hu
  obtain ⟨s, hs⟩ := mem_iff_exists_getElem?.mp hid
  obtain ⟨number, hn, -, hremove⟩ := h.removeSwitch?_eq hs
  cases hremove.symm.trans hu
  have hwithout := h.withoutSwitch hn
  intro node hnode
  have hnode := ((hwithout.releaseNode _).toLaid.mem_places_releaseNode.mp hnode).1
  exact (hwithout.toLaid.mem_places_releaseNode.mp hnode).1

/-- The room in a voltage level is left by a wiring in place of another one, if no node has come
that needs it. -/
theorem Network.Room.setTopology (h : n.Room vl count) {x : String} {t : Topology}
    (ht : x = vl → ∀ u, t = .nodeBreaker u → ∃ w, n.inside? vl = some (.nodeBreaker w) ∧
      ∀ node ∈ u.places, node ∈ w.places ∨ node.toNat + count < UInt32.size) :
    (n.setTopology x t).Room vl count := by
  intro u hu
  rw [inside?_setTopology] at hu
  split at hu
  next hx =>
    obtain ⟨_, -, rfl⟩ := Option.map_eq_some_iff.mp hu
    obtain ⟨w, hw, hplaces⟩ := ht hx u rfl
    exact (h w hw).of_places hplaces
  next => exact h u hu

/-- What the change puts on a node of the voltage level leaves `count` more numbers above it. -/
def Change.Leaves (vl : String) (count : Nat) : Change → Prop
  | .addSwitch d =>
    d.voltageLevel = vl →
      d.node1.toNat + count < UInt32.size ∧ d.node2.toNat + count < UInt32.size
  | .addBusbarSection d => d.voltageLevel = vl → d.node.toNat + count < UInt32.size
  | .addBus _ | .addBusSwitch _ | .setBusbarPosition _ _ => True
  | .removeSwitch _ | .removeConnections .. => True
  | _ => False

theorem SwitchDraft.room_of_create {d : SwitchDraft} {id : String}
    (hcreate : d.create n = .ok id m)
    (hd : d.voltageLevel = vl →
      d.node1.toNat + count < UInt32.size ∧ d.node2.toNat + count < UInt32.size)
    (h : n.Room vl count) : m.Room vl count := by
  obtain ⟨w, hw, -, -, rfl⟩ := create_eq_ok hcreate
  refine Room.setTopology (n := n.register id _) h fun hvl u hu => ?_
  cases hu
  refine ⟨w, hvl ▸ hw, fun node hnode => ?_⟩
  obtain rfl | rfl | hold := (w.mem_places_addEdge (d.switch id).edge).mp hnode
  · exact Or.inr (hd hvl).2
  · exact Or.inr (hd hvl).1
  · exact Or.inl hold

theorem BusbarSectionDraft.room_of_create {d : BusbarSectionDraft} {id : String}
    (hcreate : d.create n = .ok id m)
    (hd : d.voltageLevel = vl → d.node.toNat + count < UInt32.size) (h : n.Room vl count) :
    m.Room vl count := by
  obtain ⟨-, w, w', hw, hattach, rfl⟩ := d.create_eq_ok hcreate
  obtain ⟨-, rfl⟩ := Wiring.attach_eq_ok.mp hattach
  intro u hu
  rw [inside?_put] at hu
  refine Room.setTopology (n := n.register id _) h (fun hvl u hu => ?_) u hu
  cases hu
  refine ⟨w, hvl ▸ hw, fun node hnode => ?_⟩
  obtain rfl | hold := Wiring.mem_places_ensureNode.mp hnode
  · exact Or.inr (hd hvl)
  · exact Or.inl hold

theorem Edit.room_of_removeSwitch (hn : n.Coherent False) {id : String}
    (hremove : removeSwitch id n = .ok () m) (h : n.Room vl count) : m.Room vl count := by
  obtain ⟨x, t, -, rfl, hwired, t', ht', hkind, -⟩ := removeSwitch_eq_ok hremove
  refine Room.setTopology h fun hvl u hu => ?_
  subst hvl hu
  cases t' with
  | nodeBreaker w =>
    obtain ⟨w', hw', he⟩ := hwired w ht'
    cases he
    have hplaces := (hn.sound _ w ht').places_removeSwitch? hw'
    exact ⟨w, ht', fun node hnode => Or.inl (hplaces node hnode)⟩
  | busBreaker l => cases hkind

theorem Edit.room_of_removeConnections (hn : n.Coherent False) {x : String} {a b : Node}
    {removed : Nat} (hremove : removeConnections x a b n = .ok removed m) (h : n.Room vl count) :
    m.Room vl count := by
  obtain ⟨w, hw, rfl⟩ := removeConnections_eq_ok hremove
  refine Room.setTopology h fun hvl u hu => ?_
  cases hu
  have hplaces := (hn.sound _ w hw).places_removeConnections a b
  exact ⟨w, hvl ▸ hw, fun node hnode => Or.inl (hplaces node hnode)⟩

theorem Change.room_of_ok (hn : n.Coherent False) {c : Change} (hc : c.Leaves vl count)
    {r : Receipt} (hok : c.perform n = .ok r m) (h : n.Room vl count) : m.Room vl count := by
  cases c with
  | addSwitch d =>
    obtain ⟨id, hcreate, -⟩ := map_eq_ok.mp hok
    exact d.room_of_create hcreate hc h
  | addBusbarSection d =>
    obtain ⟨id, hcreate, -⟩ := map_eq_ok.mp hok
    exact d.room_of_create hcreate hc h
  | addBus d =>
    obtain ⟨id, hcreate, -⟩ := map_eq_ok.mp hok
    obtain ⟨l, -, -, rfl⟩ := BusDraft.create_eq_ok hcreate
    exact Room.setTopology (n := n.register id _) h fun _ u hu => by cases hu
  | addBusSwitch d =>
    obtain ⟨id, hcreate, -⟩ := map_eq_ok.mp hok
    obtain ⟨l, -, -, -, -, rfl⟩ := BusSwitchDraft.create_eq_ok hcreate
    exact Room.setTopology (n := n.register id _) h fun _ u hu => by cases hu
  | setBusbarPosition id position =>
    obtain ⟨_, k, hset, hk⟩ := bind_eq_ok.mp hok
    obtain ⟨-, rfl⟩ := pure_eq_ok.mp hk
    obtain ⟨b, -, rfl⟩ := Edit.setBusbarPosition_eq_ok hset
    intro u hu
    rw [inside?_put] at hu
    exact h u hu
  | removeSwitch id =>
    obtain ⟨_, k, hremove, hk⟩ := bind_eq_ok.mp hok
    obtain ⟨-, rfl⟩ := pure_eq_ok.mp hk
    exact Edit.room_of_removeSwitch hn hremove h
  | removeConnections x a b =>
    obtain ⟨_, hremove, -⟩ := map_eq_ok.mp hok
    exact Edit.room_of_removeConnections hn hremove h
  | _ => exact hc.elim

theorem Network.Develops.room (h : n.Develops (Change.Leaves vl count) m) (hn : n.Coherent False)
    (hroom : n.Room vl count) : m.Room vl count := by
  induction h with
  | refl => exact hroom
  | tail hpath hstep ih =>
    obtain ⟨c, r, hc, hok⟩ := hstep
    exact Change.room_of_ok (Develops.coherent hpath hn) hc hok ih

theorem Run.room_pruneLeft {s t : Session} (hs : s.network.Coherent False)
    {left : List (String × Terminal)} (hok : pruneLeft left s = .ok () t)
    (hroom : s.network.Room vl count) : t.network.Room vl count := by
  have hmade : Makes (Change.Leaves vl count) (pruneLeft left) s :=
    makes_pruneLeft (fun _ => trivial) (fun _ _ _ => trivial) left
  exact (hmade.ok hs hok).room hs hroom

/-- How many new nodes a section link of the kind goes over. -/
def SwitchKind.linkNodes (kind : SwitchKind) : Nat :=
  if kind = .breaker then 2 else 0

/-- How many new nodes the links go over. -/
def Grid.linkNodes : List (BusbarPosition × SwitchKind) → Nat
  | [] => 0
  | (_, kind) :: rest => kind.linkNodes + linkNodes rest

/-- What links each section to the one after, and how. -/
def Grid.links (g : Grid) : List (BusbarPosition × SwitchKind) :=
  (g.sections.zip g.switchKinds).flatMap fun (s, kind) => g.busbars.map fun b => (⟨b, s⟩, kind)

/-- How many new nodes a grid takes. -/
def Grid.nodeCount (g : Grid) : Nat :=
  g.positions.length + linkNodes g.links

/-- In each voltage level with a busbar section to connect to there is room for two nodes for
each side. -/
def FeederBays.HasRoom (m : FeederBays) (n : Network) : Prop :=
  ∀ bay ∈ m.bays, ∀ b ∈ n.busbarSections[bay.target]?,
    n.Room b.voltageLevel (2 * m.draft.sides.length)

instance (m : FeederBays) (n : Network) : Decidable (m.HasRoom n) :=
  inferInstanceAs (Decidable (∀ _ ∈ _, ∀ _ ∈ _, _))

namespace SectionInsertion

/-- The busbar sections to put new ones next to, with their busbar indices. -/
def extended (c : SectionInsertion) (n : Network) (b : BusbarSection)
    (reference : BusbarPosition) : List (Rail × Int32) :=
  if c.allBusbars then
    ((n.placedSections b.voltageLevel).filter (·.2.sectionIndex == reference.sectionIndex)).map
      fun (b, p) => (b.rail, p.busbarIndex)
  else [(b.rail, reference.busbarIndex)]

/-- How many new nodes a new section takes with its links. -/
def nodeCount (c : SectionInsertion) : Nat :=
  1 + c.left.kind.linkNodes + c.right.kind.linkNodes

/-- There is room for all new sections with their links. -/
def HasRoom (c : SectionInsertion) (n : Network) : Prop :=
  ∀ b ∈ n.busbarSections[c.busbarSection]?, ∀ p ∈ b.position,
    n.Room b.voltageLevel ((c.extended n b p).length * c.nodeCount)

instance (c : SectionInsertion) (n : Network) : Decidable (c.HasRoom n) :=
  inferInstanceAs (Decidable (∀ _ ∈ _, ∀ _ ∈ _, _))

end SectionInsertion

/-- There is room for the new nodes of a modification. -/
def Modification.HasRoom (m : Modification) (n : Network) : Prop :=
  match m with
  | .feederBays c => c.HasRoom n
  | .coupling c => n.RoomAt c.id1 2
  | .grid c => n.Room c.voltageLevel c.nodeCount
  | .lineTap c => n.RoomAt c.target 2
  | .lineCut c => n.RoomAt c.target 4
  | .teeReplacement c => n.RoomAt c.target 4
  | .sectionInsertion c => c.HasRoom n
  | _ => True

instance (m : Modification) (n : Network) : Decidable (m.HasRoom n) := by
  unfold Modification.HasRoom
  cases m <;> infer_instance

namespace Run

variable {s t : Session} {naming : NamingStrategy} {base : String} {kind : SwitchKind}
  {a b x y : Node}

/-- The ends of a switch in a section link between two nodes. A breaker stands between two
disconnectors, on the next two nodes. -/
inductive LinkStep (n : Network) (vl : String) (kind : SwitchKind) (a b : Node) :
    Node → Node → Prop
  | whole : LinkStep n vl kind a b a b
  | near {w : Wiring} (hw : n.inside? vl = some (.nodeBreaker w)) (hkind : kind = .breaker) :
    LinkStep n vl kind a b a w.nextNode
  | middle {w : Wiring} (hw : n.inside? vl = some (.nodeBreaker w)) (hkind : kind = .breaker) :
    LinkStep n vl kind a b w.nextNode (w.nextNode + 1)
  | far {w : Wiring} (hw : n.inside? vl = some (.nodeBreaker w)) (hkind : kind = .breaker) :
    LinkStep n vl kind a b (w.nextNode + 1) b

/-- All that a section link adds is closed switches between these nodes. -/
theorem makes_createSectionLink {A : Change → Prop} {fictitious : Bool}
    (hA : ∀ d : SwitchDraft, d.voltageLevel = vl →
      LinkStep s.network vl kind a b d.node1 d.node2 → A (.addSwitch d)) :
    Makes A (createSectionLink naming vl base kind a b fictitious) s := by
  refine Makes.ite (fun hkind => ?_) fun _ => makes_createSwitch (hA _ rfl .whole)
  refine (makes_nextNode vl).bind_ok fun first u hfirst => ?_
  obtain ⟨w, hw, rfl, rfl⟩ := nextNode_eq_ok.mp hfirst
  refine (makes_createSwitch (hA _ rfl (.near hw hkind))).bind fun _ _ => ?_
  refine (makes_createSwitch (hA _ rfl (.middle hw hkind))).bind fun _ _ => ?_
  exact makes_createSwitch (hA _ rfl (.far hw hkind))

theorem leaves_createSectionLink {fictitious : Bool}
    (hroom : s.network.Room vl (count + kind.linkNodes)) (ha : a.toNat + count < UInt32.size)
    (hb : b.toNat + count < UInt32.size) :
    Makes (Change.Leaves vl count) (createSectionLink naming vl base kind a b fictitious) s := by
  refine makes_createSectionLink fun d hvl hstep _ => ?_
  have hnext : ∀ {w}, s.network.inside? vl = some (.nodeBreaker w) → kind = .breaker →
      w.nextNode.toNat + count < UInt32.size ∧ (w.nextNode + 1).toNat + count < UInt32.size := by
    rintro w hw rfl
    have hroom : w.Room (count + 2) := hroom w hw
    have hfirst := hroom.toNat_nextNode
    have hsecond : (w.nextNode + 1).toNat = w.ceiling + 1 := hroom.toNat_add (i := 1) (by omega)
    unfold Wiring.Room at hroom
    omega
  generalize d.node1 = x, d.node2 = y at hstep ⊢
  cases hstep with
  | whole => exact ⟨ha, hb⟩
  | near hw hkind => exact ⟨ha, (hnext hw hkind).1⟩
  | middle hw hkind => exact hnext hw hkind
  | far hw hkind => exact ⟨(hnext hw hkind).2, hb⟩

/-- A section link takes up no more room than it needs. -/
theorem room_createSectionLink (hs : s.network.Coherent False) {fictitious : Bool}
    (hroom : s.network.Room vl (count + kind.linkNodes)) (ha : a.toNat + count < UInt32.size)
    (hb : b.toNat + count < UInt32.size)
    (hok : createSectionLink naming vl base kind a b fictitious s = .ok () t) :
    t.network.Coherent False ∧ t.network.Room vl count := by
  have hpath := (leaves_createSectionLink hroom ha hb).ok hs hok
  exact ⟨hpath.coherent hs, hpath.room hs (hroom.mono (Nat.le_add_right _ _))⟩

end Run

end Switchyard
