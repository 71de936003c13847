import Switchyard.FeederConnection
import Switchyard.Grid
import Switchyard.Proofs.Feeders
import Switchyard.Proofs.Rooms

namespace Switchyard

open Std Network Run

variable {f : Fold} {n m : Network} {s t : Session} {naming : NamingStrategy} {vl base : String}
  {node : Node}

namespace Network

theorem Grown.unplaced (h : n.Grown f m) (hm : m.Unplaced vl node) : n.Unplaced vl node := by
  intro w hw hplaced
  obtain ⟨w', hw', hgrown⟩ := h.wiring hw
  exact hm w' hw' (hgrown.places node hplaced)

theorem Grown.hasBus (h : n.Grown f m) {bus : String} (hb : n.HasBus vl bus) : m.HasBus vl bus := by
  obtain ⟨l, hl, hbus⟩ := hb
  obtain ⟨b, hb⟩ := mem_iff_exists_getElem?.mp hbus
  obtain ⟨l', hl', hgrown⟩ := h.layout hl
  exact ⟨l', hl', mem_iff_exists_getElem?.mpr ⟨b, hgrown.buses bus b hb⟩⟩

/-- All that is not in the network folds back to one node and to one bus. -/
def fold (n : Network) : Fold where
  node vl a :=
    match n.inside? vl with
    | some (.nodeBreaker w) => if a ∈ w.places then a else 0
    | _ => 0
  bus vl b :=
    match n.inside? vl with
    | some (.busBreaker l) => if b ∈ l.buses then b else ""
    | _ => ""

theorem fold_node_of_unplaced (h : n.Unplaced vl node) : n.fold.node vl node = 0 := by
  unfold fold
  dsimp only
  split
  next w hw => exact if_neg (h w hw)
  next => rfl

theorem fold_bus_of_new {bus : String} (h : ¬n.HasBus vl bus) : n.fold.bus vl bus = "" := by
  unfold fold
  dsimp only
  split
  next l hl => exact if_neg fun hb => h ⟨l, hl, hb⟩
  next => rfl

/-- What has grown towards this fold is joined as before. -/
theorem Grown.kept_of_fold (h : n.Grown n.fold m) (hn : n.Coherent False) : n.Kept m := by
  refine h.kept hn (fun vl w hw a ha => ?_) fun vl l hl b hb => ?_
  · simp only [fold, hw, if_pos ha]
  · simp only [fold, hl, if_pos hb]

end Network

namespace Run

theorem Makes.grown {α : Type} {r : Run α} (h : Makes (Change.Extends f) r s)
    (hs : s.network.Coherent False) {a : α} (hok : r s = .ok a t) :
    t.network.Coherent False ∧ s.network.Grown f t.network :=
  ⟨Develops.coherent (h.ok hs hok) hs, Develops.grown (h.ok hs hok) hs⟩

theorem makes_copyRailSwitches {railNode : Node} (copies : List (Node × RailSwitch)) :
    Makes (Change.Switches f) (copyRailSwitches naming vl base railNode copies) s := by
  induction copies generalizing s with
  | nil => exact makes_pure ()
  | cons copy rest ih =>
    refine Makes.bind (Makes.network_bind ?_) fun _ _ => ih
    exact Makes.ite (fun _ => makes_createSwitch (Or.inl rfl)) fun _ =>
      makes_createSwitch (Or.inl rfl)

/-- A link between nodes that fold back to one goes over new nodes that do. -/
theorem switches_createSectionLink {kind : SwitchKind} {a b : Node}
    (hends : f.node vl a = f.node vl b)
    (hnew : kind = .breaker → ∀ w, s.network.inside? vl = some (.nodeBreaker w) →
      f.node vl w.nextNode = f.node vl a ∧ f.node vl (w.nextNode + 1) = f.node vl a)
    {fictitious : Bool} :
    Makes (Change.Switches f) (createSectionLink naming vl base kind a b fictitious) s := by
  refine makes_createSectionLink fun d hvl hstep => Or.inr ?_
  rw [hvl]
  generalize d.node1 = x, d.node2 = y at hstep ⊢
  cases hstep with
  | whole => exact hends
  | near hw hkind => exact (hnew hkind _ hw).1.symm
  | middle hw hkind => exact (hnew hkind _ hw).1.trans (hnew hkind _ hw).2.symm
  | far hw hkind => exact (hnew hkind _ hw).2.trans hends

end Run

namespace FeederConnection

theorem makes_findSections {A : Change → Prop} (ids : List String) :
    Makes A (findSections ids) s := by
  induction ids generalizing s with
  | nil => exact makes_pure []
  | cons id rest ih =>
    exact (makes_busbarSection id).bind fun _ _ => ih.bind fun _ _ => makes_pure _

theorem makes_checkConnectables {A : Change → Prop} (ids : List String) :
    Makes A (checkConnectables n ids) s := by
  induction ids generalizing s with
  | nil => exact makes_pure ()
  | cons id rest ih =>
    unfold checkConnectables
    exact Makes.check_bind (k := fun _ => checkConnectables n rest) fun _ => ih

theorem makes_connectTargets {toCopy : List (Node × RailSwitch)} (targets : List Rail) :
    Makes (Change.Extends f) (connectTargets naming vl base toCopy targets) s := by
  induction targets generalizing s with
  | nil => exact makes_pure 0
  | cons target rest ih =>
    refine Makes.network_bind (Makes.bind ?_ fun _ _ => ih.bind fun _ _ => makes_pure _)
    exact (makes_copyRailSwitches _).mono Change.Switches.toExtends

theorem makes_connectSections (c : FeederConnection)
    {placed : List (BusbarSection × BusbarPosition)} {targets : List (Rail × BusbarPosition)}
    (indices : List Int32) :
    Makes (Change.Extends f) (c.connectSections naming vl base placed targets indices) s := by
  induction indices generalizing s with
  | nil => exact makes_pure 0
  | cons i rest ih =>
    refine Makes.network_bind ((makes_lookUp _).bind fun w t => ?_)
    exact (makes_connectTargets _).bind fun _ _ => ih.bind fun _ _ => makes_pure _

theorem makes_steps (c : FeederConnection) (naming : NamingStrategy) :
    Makes (Change.Extends f) (c.steps naming) s := by
  unfold steps
  refine Makes.check_bind fun _ => ?_
  refine (makes_findSections _).bind fun found t => Makes.network_bind ?_
  refine (makes_checkConnectables _).bind fun _ u => ?_
  dsimp only
  split
  · exact makes_refuse _
  · exact (c.makes_connectSections _).bind fun count _ => makes_emit _

end FeederConnection

theorem mem_of_lookup {α β : Type} [BEq α] [LawfulBEq α] {l : List (α × β)} {a : α} {b : β}
    (h : l.lookup a = some b) : (a, b) ∈ l := by
  obtain ⟨l₁, l₂, he, -⟩ := List.lookup_eq_some_iff.mp h
  simp [he]

namespace Grid

theorem makes_createBuses (positions : List BusbarPosition) :
    Makes (Change.Extends f) (createBuses naming vl base positions) s := by
  induction positions generalizing s with
  | nil => exact makes_pure []
  | cons p rest ih =>
    let draft : BusDraft :=
      { voltageLevel := vl, id := naming.busbar base p.busbarIndex p.sectionIndex }
    refine (makes_edit (c := .addBus draft) (Edit.is_create rfl) trivial).bind fun id _ => ?_
    exact (makes_emit _).bind fun _ _ => ih.bind fun _ _ => makes_pure _

theorem new_of_createBuses (hs : s.network.Coherent False) (hn : n.Grown f s.network)
    {positions : List BusbarPosition} {buses : List (BusbarPosition × String)}
    (hok : createBuses naming vl base positions s = .ok buses t) :
    ∀ x ∈ buses, ¬n.HasBus vl x.2 := by
  induction positions generalizing s t buses with
  | nil =>
    obtain ⟨rfl, -⟩ := pure_eq_ok.mp hok
    simp
  | cons p rest ih =>
    simp only [createBuses, bind_eq_ok, edit_eq_ok, emit_eq_ok, pure_eq_ok] at hok
    obtain ⟨id, _, ⟨k, hk, rfl⟩, _, _, rfl, more, u, hmore, rfl, -⟩ := hok
    obtain ⟨l, hl, hid, -⟩ := BusDraft.create_eq_ok hk
    let c : Change := .addBus
      { voltageLevel := vl, id := naming.busbar base p.busbarIndex p.sectionIndex }
    have hc : c.Extends f := trivial
    have hadded : c.perform s.network = .ok (.created id) k := map_eq_ok.mpr ⟨id, hk, rfl⟩
    refine List.forall_mem_cons.mpr ⟨fun hb => ?_, ih ?_ ?_ hmore⟩
    · obtain ⟨l', hl', hbus⟩ := hn.hasBus hb
      have hheld : (Topology.busBreaker l').Holds id .bus := Or.inr ⟨rfl, hbus⟩
      exact hs.stores_of_index hid _ (.inside hl' hheld)
    · exact c.coherent_of_ok rfl hs hadded
    · exact hn.trans (Change.grown_of_ok hs hc hadded)

theorem makes_linkBuses {buses : List (BusbarPosition × String)}
    (hbuses : ∀ x ∈ buses, ∀ y ∈ buses, x.1.busbarIndex = y.1.busbarIndex →
      f.bus vl x.2 = f.bus vl y.2)
    (positions : List BusbarPosition) :
    Makes (Change.Switches f) (linkBuses naming vl base buses positions) s := by
  induction positions generalizing s with
  | nil => exact makes_pure ()
  | cons p rest ih =>
    rw [linkBuses]
    dsimp only
    split
    next bus1 bus2 h1 h2 =>
      have hends := hbuses _ (mem_of_lookup h1) _ (mem_of_lookup h2) rfl
      exact (makes_createBusSwitch hends).bind fun _ _ => ih
    next => exact ih

/-- The positions, with the nodes from the given one on. -/
def numbered (node : Node) : List BusbarPosition → List (BusbarPosition × Node)
  | [] => []
  | p :: rest => (p, node) :: numbered (node + 1) rest

theorem numbered_add {positions : List BusbarPosition} (i : Nat) :
    numbered (node + .ofNat i) positions =
      (positions.zipIdx i).map fun x => (x.1, node + .ofNat x.2) := by
  induction positions generalizing i with
  | nil => rfl
  | cons p rest ih =>
    have hafter : node + .ofNat i + 1 = node + .ofNat (i + 1) := by
      rw [UInt32.add_assoc, UInt32.ofNat_add]
      rfl
    rw [numbered, hafter, ih, List.zipIdx_cons, List.map_cons]

theorem numbered_eq_zipIdx {positions : List BusbarPosition} :
    numbered node positions = positions.zipIdx.map fun x => (x.1, node + .ofNat x.2) := by
  have hfirst : numbered (node + .ofNat 0) positions = _ := numbered_add 0
  rwa [show UInt32.ofNat 0 = 0 from rfl, UInt32.add_zero] at hfirst

theorem numbered_eq_map {positions : List BusbarPosition} (h : positions.Nodup) :
    numbered node positions = positions.map fun p => (p, node + .ofNat (positions.idxOf p)) := by
  rw [numbered_eq_zipIdx]
  refine List.ext_getElem (by simp) fun i hi hi' => ?_
  simp [h.idxOf_getElem]

theorem exists_of_mem_numbered {positions : List BusbarPosition} {x : BusbarPosition × Node}
    (hx : x ∈ numbered node positions) : ∃ i < positions.length, x.2 = node + .ofNat i := by
  rw [numbered_eq_zipIdx] at hx
  obtain ⟨y, hy, rfl⟩ := List.mem_map.mp hx
  exact ⟨y.2, by simpa using List.snd_lt_of_mem_zipIdx hy, rfl⟩

theorem makes_createSections {A : Change → Prop} {positions : List BusbarPosition}
    (hA : ∀ d : BusbarSectionDraft, d.voltageLevel = vl →
      d.node ∈ (numbered node positions).map (·.2) → A (.addBusbarSection d)) :
    Makes A (createSections naming vl base node positions) s := by
  induction positions generalizing s node with
  | nil => exact makes_pure []
  | cons p rest ih =>
    let draft : BusbarSectionDraft :=
      { voltageLevel := vl, id := naming.busbar base p.busbarIndex p.sectionIndex, node,
        position := some p }
    have hdraft : A (.addBusbarSection draft) := hA draft rfl List.mem_cons_self
    refine (makes_edit (Edit.is_create rfl) hdraft).bind fun id _ => ?_
    refine (makes_emit _).bind fun _ _ => (ih fun d hvl hd => ?_).bind fun _ _ => makes_pure _
    exact hA d hvl (List.mem_cons_of_mem _ hd)

theorem numbered_of_createSections {positions : List BusbarPosition}
    {created : List (BusbarPosition × Node)}
    (hok : createSections naming vl base node positions s = .ok created t) :
    created = numbered node positions := by
  induction positions generalizing s t node created with
  | nil => exact (pure_eq_ok.mp hok).1.symm
  | cons p rest ih =>
    simp only [createSections, bind_eq_ok, pure_eq_ok] at hok
    obtain ⟨_, _, -, _, _, -, more, u, hmore, rfl, -⟩ := hok
    rw [ih hmore, numbered]

/-- Where there is room, the nodes from the next one on are new, with as many numbers above them
as there is room for more. -/
theorem room_of_mem_numbered {positions : List BusbarPosition} {more : Nat} {w : Wiring}
    (hw : n.inside? vl = some (.nodeBreaker w)) (hroom : n.Room vl (positions.length + more))
    {x : BusbarPosition × Node} (hx : x ∈ numbered w.nextNode positions) :
    n.Unplaced vl x.2 ∧ x.2.toNat + more < UInt32.size := by
  obtain ⟨i, hi, he⟩ := exists_of_mem_numbered hx
  have hlt : i < positions.length + more := Nat.lt_of_lt_of_le hi (Nat.le_add_right _ _)
  rw [he]
  refine ⟨hroom.unplaced hlt hw, ?_⟩
  rw [(hroom w hw).toNat_add hlt]
  have hroom : w.ceiling + (positions.length + more) ≤ UInt32.size := hroom w hw
  omega

theorem room_of_createSections (hs : s.network.Coherent False) {positions : List BusbarPosition}
    {more : Nat} {w : Wiring} (hw : s.network.inside? vl = some (.nodeBreaker w))
    (hroom : s.network.Room vl (positions.length + more)) {created : List (BusbarPosition × Node)}
    (hok : createSections naming vl base w.nextNode positions s = .ok created t) :
    t.network.Room vl more := by
  have hmade : Makes (Change.Leaves vl more)
      (createSections naming vl base w.nextNode positions) s := by
    refine makes_createSections fun d _ hd _ => ?_
    obtain ⟨x, hx, he⟩ := List.mem_map.mp hd
    exact he ▸ (room_of_mem_numbered hw hroom hx).2
  exact (hmade.ok hs hok).room hs (hroom.mono (Nat.le_add_left _ _))

theorem makes_linkSections (hn : n.Grown n.fold s.network)
    {created : List (BusbarPosition × Node)} {links : List (BusbarPosition × SwitchKind)}
    (hcreated : ∀ x ∈ created, n.Unplaced vl x.2 ∧ x.2.toNat + linkNodes links < UInt32.size)
    (hroom : s.network.Room vl (linkNodes links)) :
    Makes (Change.Switches n.fold) (linkSections naming vl base created links) s := by
  induction links generalizing s with
  | nil => exact makes_pure ()
  | cons link rest ih =>
    obtain ⟨p, kind⟩ := link
    have hcount : linkNodes ((p, kind) :: rest) = linkNodes rest + kind.linkNodes :=
      Nat.add_comm _ _
    rw [hcount] at hcreated hroom
    have hrest : ∀ x ∈ created, n.Unplaced vl x.2 ∧ x.2.toNat + linkNodes rest < UInt32.size :=
      fun x hx => ⟨(hcreated x hx).1, Nat.lt_of_le_of_lt (by omega) (hcreated x hx).2⟩
    rw [linkSections]
    dsimp only
    split
    next a b h1 h2 =>
      have ha := mem_of_lookup h1
      have hb := mem_of_lookup h2
      have hnew : ∀ {x}, n.Unplaced vl x → n.fold.node vl x = n.fold.node vl a := fun hx => by
        rw [fold_node_of_unplaced hx, fold_node_of_unplaced (hcreated _ ha).1]
      let id := naming.sectioning base p.busbarIndex p.sectionIndex (p.sectionIndex + 1)
      have hlink : Makes (Change.Switches n.fold)
          (createSectionLink naming vl id kind a b false) s := by
        refine switches_createSectionLink (hnew (hcreated _ hb).1).symm fun hkind w hw => ?_
        subst hkind
        have hfirst := hroom.unplaced (i := 0) (Nat.lt_add_left _ Nat.two_pos) hw
        have hsecond := hroom.unplaced (i := 1) (Nat.lt_add_left _ Nat.one_lt_two) hw
        exact ⟨hnew (hn.unplaced (UInt32.add_zero w.nextNode ▸ hfirst)),
          hnew (hn.unplaced hsecond)⟩
      -- The links to come start from the network that this one has grown.
      intro hs
      refine hlink.bind_ok (fun _ t ht => ih (hn.trans ?_) hrest ?_) hs
      · exact ((hlink.mono Change.Switches.toExtends).grown hs ht).2
      · exact (room_createSectionLink hs hroom (hrest _ ha).2 (hrest _ hb).2 ht).2
    next => exact ih hn hrest (hroom.mono (Nat.le_add_right _ _))

theorem makes_copyToRails {toCopy : List (Node × RailSwitch)} (nodes : List Node) :
    Makes (Change.Switches f) (copyToRails naming vl base toCopy nodes) s := by
  induction nodes generalizing s with
  | nil => exact makes_pure ()
  | cons node rest ih => exact (makes_copyRailSwitches _).bind fun _ _ => ih

theorem makes_connectSections {existing : List (BusbarSection × BusbarPosition)}
    {created : List (BusbarPosition × Node)} (sections : List Int32) :
    Makes (Change.Switches f) (connectSections naming vl base existing created sections) s := by
  induction sections generalizing s with
  | nil => exact makes_pure ()
  | cons i rest ih =>
    refine Makes.network_bind ((makes_lookUp _).bind fun w t => ?_)
    exact (makes_copyToRails _).bind fun _ _ => ih

theorem makes_stepsOnBuses (g : Grid) {switchBase : String} :
    Makes (Change.Extends s.network.fold) (g.stepsOnBuses naming base switchBase) s := by
  intro hs
  refine (makes_createBuses _).bind_ok (fun buses t hbuses => ?_) hs
  have hnew := new_of_createBuses hs (.refl (f := s.network.fold) _) hbuses
  refine (makes_linkBuses (fun x hx y hy _ => ?_) _).mono Change.Switches.toExtends
  rw [fold_bus_of_new (hnew x hx), fold_bus_of_new (hnew y hy)]

theorem makes_stepsOnNodes (g : Grid) (hroom : s.network.Room g.voltageLevel g.nodeCount)
    {switchBase : String} :
    Makes (Change.Extends s.network.fold) (g.stepsOnNodes naming base switchBase) s := by
  intro hs
  refine Makes.network_bind (Makes.check_bind fun _ => ?_) hs
  dsimp only
  cases g.checkSwitchKinds with
  | error fault => exact makes_refuse fault
  | ok _ =>
    refine (makes_nextNode _).bind_ok fun first u hfirst => ?_
    obtain ⟨w, hw, rfl, rfl⟩ := nextNode_eq_ok.mp hfirst
    have hmade : Makes (Change.Extends s.network.fold)
        (createSections naming g.voltageLevel base w.nextNode g.positions) s :=
      makes_createSections fun _ _ _ => trivial
    refine hmade.bind_ok fun created u hcreated => ?_
    obtain rfl := numbered_of_createSections hcreated
    have hlinked : Makes (Change.Extends s.network.fold) (linkSections naming g.voltageLevel
        switchBase (numbered w.nextNode g.positions) g.links) u :=
      (makes_linkSections (hmade.grown hs hcreated).2
        (fun x hx => room_of_mem_numbered hw hroom hx)
        (room_of_createSections hs hw hroom hcreated)).mono Change.Switches.toExtends
    refine hlinked.bind fun _ _ => Makes.ite (fun _ => ?_) fun _ => makes_pure ()
    exact (makes_connectSections _).mono Change.Switches.toExtends

/-- A grid links what is new only, and connects it to what there was by open switches. -/
theorem makes_steps (g : Grid) (hroom : s.network.Room g.voltageLevel g.nodeCount)
    (naming : NamingStrategy) : Makes (Change.Extends s.network.fold) (g.steps naming) s := by
  unfold steps
  cases g.checkCounts with
  | error fault => exact makes_refuse fault
  | ok _ =>
    refine Makes.network_bind ?_
    cases s.network.voltageLevels[g.voltageLevel]? with
    | none => exact makes_refuse _
    | some v =>
      dsimp only
      cases v.topology with
      | nodeBreaker w => exact (g.makes_stepsOnNodes hroom).bind fun _ _ => makes_emit _
      | busBreaker l => exact g.makes_stepsOnBuses.bind fun _ _ => makes_emit _

end Grid

end Switchyard
