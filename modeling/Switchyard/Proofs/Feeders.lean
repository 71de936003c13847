import Switchyard.FeederRemoval
import Switchyard.Proofs.Cutting
import Switchyard.Proofs.Settling

namespace Switchyard

open Std Network Run

namespace ConnectableDraft

theorem sides_attach (d : ConnectableDraft) (s : Side) (t : Terminal) :
    (d.attach s t).sides = d.sides := by
  cases d <;> cases s <;> rfl

theorem nodup_sides (d : ConnectableDraft) : d.sides.Nodup := by
  cases d <;> simp [sides]

theorem terminal?_attach {d : ConnectableDraft} {s : Side} (h : s ∈ d.sides) (t : Terminal)
    {u : Side} (hu : u ∈ d.sides) :
    (d.attach s t).terminal? u = if u = s then some t else d.terminal? u := by
  cases d <;> cases s <;> cases u <;> simp_all [sides, attach, terminal?, BranchDraft.terminal?]

end ConnectableDraft

variable [Numbering]

/-- The node is one of as many as `count`, from the next one of the voltage level on. -/
def Network.Upcoming (n : Network) (vl : String) (count : Nat) (node : Node) : Prop :=
  ∃ w i, n.inside? vl = some (.nodeBreaker w) ∧ i < count ∧ node = w.nextNode + .ofNat i

namespace Network.Upcoming

variable {n : Network} {vl : String} {count : Nat} {node : Node}

theorem succ (h : n.Upcoming vl count node) : n.Upcoming vl (count + 1) (node + 1) := by
  obtain ⟨w, i, hw, hi, rfl⟩ := h
  exact ⟨w, i + 1, hw, Nat.succ_lt_succ hi, by rw [UInt32.ofNat_add, UInt32.add_assoc]; rfl⟩

theorem mono (h : n.Upcoming vl count node) {more : Nat} (hle : count ≤ more) :
    n.Upcoming vl more node := by
  obtain ⟨w, i, hw, hi, hnode⟩ := h
  exact ⟨w, i, hw, Nat.lt_of_lt_of_le hi hle, hnode⟩

theorem first {w : Wiring} (hw : n.inside? vl = some (.nodeBreaker w)) (count : Nat) :
    n.Upcoming vl (count + 1) w.nextNode :=
  ⟨w, 0, hw, Nat.succ_pos _, (UInt32.add_zero _).symm⟩

end Network.Upcoming

/-- The last node chosen in each voltage level is one of its next ones. -/
def Network.Counts (n : Network) (used : Nat) (taken : ExtTreeMap String Node) : Prop :=
  ∀ vl last, taken[vl]? = some last → n.Upcoming vl used last

theorem Network.Counts.empty (n : Network) (used : Nat) : n.Counts used ∅ := by
  simp [Counts]

theorem Network.Counts.insert {n : Network} {used : Nat} {taken : ExtTreeMap String Node}
    (h : n.Counts used taken) {vl : String} {node : Node} (hnode : n.Upcoming vl used node) :
    n.Counts used (taken.insert vl node) := by
  intro v last hlast
  rw [ExtTreeMap.getElem?_insert] at hlast
  split at hlast
  next he =>
    cases hlast
    exact Std.compare_eq_iff_eq.mp he ▸ hnode
  next => exact h v last hlast

/-- The terminal is at the bus of a junction, or at one of the next `count` nodes of the
voltage level of its busbar section. -/
def Junction.Admits (n : Network) (count : Nat) : Junction → Terminal → Prop
  | .bus id vl, t => t = .atBus vl id
  | .busbarSection _ vl _, t => ∃ node, t = .atNode vl node ∧ n.Upcoming vl count node

/-- The junction of a side is the one with its target, and an order is given where
it is a busbar section. -/
structure BaySide.Found (n : Network) (x : BaySide) : Prop where
  junction_eq : n.junction x.bay.target = .ok x.junction
  ordered : ∀ id vl node, x.junction = .busbarSection id vl node → x.bay.order.isSome

/-- The order of a side can be used: it is at a busbar section that has a position,
and nothing is wrong with the order there. -/
def BaySide.Usable (n : Network) (x : BaySide) : Prop :=
  ∃ id vl node, x.junction = .busbarSection id vl node ∧ (n.sectionIndex? id).isSome ∧
    n.orderFault? id vl (x.bay.order.getD 0) = .ok none

namespace FeederBays

variable {tight : Prop} {doomed : String → Prop} {s : Session}

/-- The sides found are those given, at junctions that are there. -/
theorem traced_findSides (given : List (Side × FeederBay)) :
    Traced tight doomed (findSides given) s fun sides t =>
      t.network = s.network ∧ sides.map (fun x => (x.side, x.bay)) = given ∧
        ∀ x ∈ sides, x.Found s.network := by
  induction given generalizing s with
  | nil => exact Traced.pure (by simp)
  | cons g rest ih =>
    obtain ⟨side, bay⟩ := g
    refine Traced.bind (traced_junction bay.target) ?_
    intro junction t hx
    obtain ⟨ht, hjunction⟩ := hx
    rw [ht]
    have htail : ∀ t, t.network = s.network →
        (∀ id vl node, junction = .busbarSection id vl node → bay.order.isSome) →
        Traced tight doomed
          (findSides rest >>= fun sides => pure (⟨side, bay, junction⟩ :: sides)) t
          fun sides u => u.network = s.network ∧
            sides.map (fun x => (x.side, x.bay)) = (side, bay) :: rest ∧
            ∀ x ∈ sides, x.Found s.network := by
      intro t ht hordered
      refine Traced.bind ih fun sides u hsides => Traced.pure ?_
      obtain ⟨hu, hsame, hall⟩ := hsides
      rw [ht] at hu hall
      exact ⟨hu, by rw [List.map_cons, hsame],
        List.forall_mem_cons.mpr ⟨⟨hjunction, hordered⟩, hall⟩⟩
    dsimp only
    split
    next => exact Traced.emit_bind rfl rfl (htail _ rfl (by simp))
    next => exact Traced.refuse_bind (by simp [Fault.kind])
    next horder =>
      have hordered : bay.order.isSome := by rw [horder, Option.isSome_some]
      exact Traced.ite (fun _ => Traced.refuse_bind (by simp [Fault.kind])) fun _ =>
        htail _ rfl fun _ _ _ _ => hordered
    next hbus hnone hsome =>
      refine htail _ rfl fun id vl node hj => ?_
      cases horder : bay.order with
      | none => exact (hnone id vl node hj horder).elim
      | some o => rfl

theorem kind_of_positionRange_error {n : Network} {busbarSection : String} {f : Fault}
    (h : n.positionRange busbarSection = .error f) : f.kind ≠ .internal := by
  unfold positionRange Network.busbarSection at h
  cases hb : n.busbarSections[busbarSection]? with
  | none =>
    rw [hb] at h
    cases h
    simp [Fault.kind]
  | some b =>
    rw [hb] at h
    dsimp only [bind, Except.bind] at h
    split at h <;> cases h

theorem kind_of_orderFault_error {n : Network} {busbarSection voltageLevel : String}
    {order : FeederOrder} {f : Fault}
    (h : n.orderFault? busbarSection voltageLevel order = .error f) : f.kind ≠ .internal := by
  unfold orderFault? at h
  split at h
  · cases h
  · cases hr : n.positionRange busbarSection with
    | error g =>
      rw [hr] at h
      cases h
      exact kind_of_positionRange_error hr
    | ok range =>
      rw [hr] at h
      dsimp only [bind, Except.bind] at h
      split at h
      · cases h
      · split at h <;> cases h

theorem kind_of_orderFault {n : Network} {busbarSection voltageLevel : String}
    {order : FeederOrder} {f : Fault}
    (h : n.orderFault? busbarSection voltageLevel order = .ok (some f)) : f.kind ≠ .internal := by
  unfold orderFault? at h
  split at h
  · cases h
    simp [Fault.kind]
  · cases hr : n.positionRange busbarSection with
    | error g =>
      rw [hr] at h
      cases h
    | ok range =>
      rw [hr] at h
      dsimp only [bind, Except.bind] at h
      split at h
      · cases h
        simp [Fault.kind]
      · split at h <;> cases h
        simp [Fault.kind]

theorem traced_checkOrder (force : Bool) (busbarSection voltageLevel : String)
    (order : FeederOrder) :
    Traced tight doomed (checkOrder force busbarSection voltageLevel order) s
      fun ranked t => t.network = s.network ∧
        (ranked = true ↔ s.network.orderFault? busbarSection voltageLevel order = .ok none) := by
  refine Traced.network_bind
    (Traced.lookUp_bind (fun found hf => ?_) fun _ => kind_of_orderFault_error)
  rw [hf]
  cases found with
  | none => exact Traced.pure (by simp)
  | some f =>
    refine Traced.ite (fun _ => Traced.refuse (kind_of_orderFault hf)) fun _ => ?_
    refine Traced.emit_bind ?_ rfl (Traced.pure (by simp [Session.tell]))
    simp [Event.isError, Event.severity, Event.report, Fault.severity_report]

/-- What comes of choosing terminals for some sides of a draft. -/
structure Settles (n : Network) (count : Nat) (d : ConnectableDraft) (sides : List BaySide)
    (r : ConnectableDraft × List RankedSide) : Prop where
  ranks : r.2.map (·.toBaySide) = sides
  sides_eq : r.1.sides = d.sides
  admits : ∀ x ∈ sides, ∃ t, r.1.terminal? x.side = some t ∧ x.junction.Admits n count t
  same : ∀ y ∈ d.sides, y ∉ sides.map (·.side) → r.1.terminal? y = d.terminal? y
  ranked_iff : ∀ x ∈ r.2, x.ranked = true ↔ x.Usable n

theorem Settles.cons {n : Network} {count : Nat} {d : ConnectableDraft} {x : BaySide}
    {rest : List BaySide} {t : Terminal} {r : ConnectableDraft × List RankedSide}
    (hx : x.side ∈ d.sides) (hnot : x.side ∉ rest.map (·.side))
    (ht : x.junction.Admits n count t) (h : Settles n count (d.attach x.side t) rest r)
    {ranked : Bool} (hranked : ranked = true ↔ x.Usable n) :
    Settles n count d (x :: rest) (r.1, ⟨x, ranked⟩ :: r.2) := by
  obtain ⟨hranks, hsides, hadmits, hsame, hused⟩ := h
  rw [ConnectableDraft.sides_attach] at hsides hsame
  refine ⟨by rw [List.map_cons, hranks], hsides, ?_, fun y hy hyn => ?_,
    List.forall_mem_cons.mpr ⟨hranked, hused⟩⟩
  · refine List.forall_mem_cons.mpr ⟨⟨t, ?_, ht⟩, hadmits⟩
    rw [hsame x.side hx hnot, ConnectableDraft.terminal?_attach hx _ hx, if_pos rfl]
  · have hne : y ≠ x.side := fun he => hyn (he ▸ List.mem_cons_self)
    rw [hsame y hy fun hm => hyn (List.mem_cons_of_mem _ hm),
      ConnectableDraft.terminal?_attach hx _ hy, if_neg hne]

/-- The nodes chosen in a voltage level are its next ones, at most one for each side. -/
theorem traced_chooseTerminals (force : Bool) {taken : ExtTreeMap String Node} {used count : Nat}
    (d : ConnectableDraft) (sides : List BaySide) (hin : ∀ x ∈ sides, x.side ∈ d.sides)
    (hnodup : (sides.map (·.side)).Nodup) (hcount : used + sides.length ≤ count)
    (htaken : s.network.Counts used taken) :
    Traced tight doomed (chooseTerminals force taken d sides) s fun r t =>
      t.network = s.network ∧ Settles s.network count d sides r := by
  induction sides generalizing taken used d s with
  | nil => exact Traced.pure ⟨rfl, rfl, rfl, by simp, fun _ _ _ => rfl, by simp⟩
  | cons x rest ih =>
    obtain ⟨hnot, hnodup⟩ := List.nodup_cons.mp hnodup
    have hx : x.side ∈ d.sides := hin _ List.mem_cons_self
    have hmore : used + 1 + rest.length ≤ count := by
      rw [List.length_cons] at hcount
      omega
    have hused : used + 1 ≤ count := Nat.le_trans (Nat.le_add_right _ _) hmore
    have htail : ∀ {t taken term ranked}, t.network = s.network →
        s.network.Counts (used + 1) taken →
        x.junction.Admits s.network count term → (ranked = true ↔ x.Usable s.network) →
        Traced tight doomed
          (chooseTerminals force taken (d.attach x.side term) rest >>= fun r =>
            pure (r.1, ⟨x, ranked⟩ :: r.2)) t
          fun r u => u.network = s.network ∧ Settles s.network count d (x :: rest) r := by
      intro t taken term ranked ht htaken hterm hranked
      have hrest : ∀ y ∈ rest, y.side ∈ (d.attach x.side term).sides := fun y hy =>
        (d.sides_attach x.side term).symm ▸ hin y (List.mem_cons_of_mem _ hy)
      refine Traced.bind (ih _ hrest hnodup hmore (ht ▸ htaken)) fun r u hr => Traced.pure ?_
      obtain ⟨hu, hsettles⟩ := ht ▸ hr
      exact ⟨hu, hsettles.cons hx hnot hterm hranked⟩
    have hkept : s.network.Counts (used + 1) taken := fun vl last hlast =>
      (htaken vl last hlast).mono (Nat.le_succ _)
    rw [chooseTerminals]
    cases hj : x.junction with
    | bus id vl => exact htail rfl hkept (hj ▸ rfl) (by simp [BaySide.Usable, hj])
    | busbarSection id vl node =>
      have husable : x.Usable s.network ↔ (s.network.sectionIndex? id).isSome ∧
          s.network.orderFault? id vl (x.bay.order.getD 0) = .ok none := by
        simp only [BaySide.Usable, hj, Junction.busbarSection.injEq]
        grind
      have hplace : ∀ {number}, s.network.Upcoming vl (used + 1) number → Traced tight doomed (do
          let ranked ←
            if ((← network).sectionIndex? id).isSome then
              checkOrder force id vl (x.bay.order.getD 0)
            else pure false
          let r ← chooseTerminals force (taken.insert vl number)
            (d.attach x.side (.atNode vl number)) rest
          pure (r.1, ⟨x, ranked⟩ :: r.2)) s
          fun r u => u.network = s.network ∧ Settles s.network count d (x :: rest) r := by
        intro number hnumber
        have hterm : x.junction.Admits s.network count (.atNode vl number) :=
          hj ▸ ⟨number, rfl, hnumber.mono hused⟩
        have htaken : s.network.Counts (used + 1) (taken.insert vl number) := hkept.insert hnumber
        refine Traced.network_bind (Traced.ite (fun hplaced => ?_) fun hunplaced =>
          htail rfl htaken hterm (by simp [husable, hunplaced]))
        refine Traced.bind (traced_checkOrder force id vl _) fun ranked t hranked => ?_
        exact htail hranked.1 htaken hterm (by rw [husable, hranked.2, and_iff_right hplaced])
      dsimp only
      split
      next last hlast => exact hplace (htaken vl last hlast).succ
      next =>
        refine Traced.bind (traced_nextNode vl) fun number t hnext => ?_
        obtain ⟨ht, w, hw, rfl⟩ := hnext
        rw [ht]
        exact hplace (.first hw used)

/-- Each side at a busbar section has a terminal at a node. -/
def Chosen (d : ConnectableDraft) (sides : List RankedSide) : Prop :=
  ∀ r ∈ sides, ∀ id vl node, r.junction = .busbarSection id vl node →
    ∃ number, d.terminal? r.side = some (.atNode vl number)

theorem Settles.chosen {n : Network} {count : Nat} {d : ConnectableDraft} {sides : List BaySide}
    {r : ConnectableDraft × List RankedSide} (h : Settles n count d sides r) : Chosen r.1 r.2 := by
  intro x hx id vl node hj
  obtain ⟨t, ht, hadmits⟩ := h.admits x.toBaySide (h.ranks ▸ List.mem_map_of_mem hx)
  rw [hj] at hadmits
  obtain ⟨number, rfl, -⟩ := hadmits
  exact ⟨number, ht⟩

theorem builds_createBay (hd : ∀ vl, ¬doomed vl) (naming : NamingStrategy) {connectable : String}
    {c : Connectable} (hc : s.network.Keeps connectable c) (sided : Bool) (r : RankedSide)
    (busbarSection : String) {vl : String} {number : Node}
    (ht : c.terminal? r.side = some (.atNode vl number)) (sectionNode : Node) :
    Builds tight doomed (createBay naming connectable sided r busbarSection vl sectionNode) s := by
  refine Traced.of_coherent fun hs => Traced.network_bind ?_
  have hnode : ((s.network.connectable? connectable).bind (·.terminal? r.side)).bind (·.node?) =
      some number := by
    rw [hs.connectable?_eq_some_iff.mpr hc, Option.bind_some, ht]
    rfl
  rw [hnode]
  refine Builds.note rfl rfl fun _ => Builds.bind (builds_baySections _ _ _) fun rails _ => ?_
  refine Builds.note rfl rfl fun _ => Builds.bind (builds_nextNode vl) fun fork _ => ?_
  refine Builds.bind (Run.builds_createBay naming (hd vl) _ _ _ _) fun _ _ => ?_
  exact Builds.bind (Builds.emit rfl rfl) fun _ _ => Builds.pure

theorem builds_createBays (hd : ∀ vl, ¬doomed vl) (naming : NamingStrategy) {connectable : String}
    {c : Connectable} (hc : s.network.Keeps connectable c) (sided : Bool)
    (position : FeederPosition) {d : ConnectableDraft}
    (hcd : ∀ x t, d.terminal? x = some t → c.terminal? x = some t)
    {sides : List RankedSide} (hsides : Chosen d sides) :
    Builds tight doomed (createBays naming connectable sided position sides) s := by
  induction sides generalizing s position with
  | nil => exact Builds.pure
  | cons r rest ih =>
    obtain ⟨hr, hrest⟩ := List.forall_mem_cons.mp hsides
    have htail : ∀ position t, s.Retains t →
        Builds tight doomed (createBays naming connectable sided position rest) t :=
      fun position t hst => ih (hst connectable c hc) position hrest
    rw [createBays]
    cases hj : r.junction with
    | bus id vl => exact Builds.bind_retains (Builds.emit rfl rfl) fun _ => htail position
    | busbarSection id vl node =>
      obtain ⟨number, hnumber⟩ := hr id vl node hj
      refine Builds.bind_retains (builds_createBay hd naming hc sided r id (hcd _ _ hnumber) node)
        fun feeder t hst => ?_
      cases feeder with
      | none => exact htail position t hst
      | some feeder => exact htail (position.setFeeder feeder r.side) t hst

/-- A connectable drawn up for another network leaves at once, and the network
has the ids it had before. -/
theorem traced_enter {d : ConnectableDraft} {k : String → Run Unit}
    (hk : ∀ id t c, t.network.Keeps id c →
      (∀ x u, d.terminal? x = some u → c.terminal? x = some u) →
      Traced tight doomed (k id) t fun _ _ => True) :
    Traced tight doomed (do
        let id ← edit d.create
        if d.owner ≠ (← network).serial then
          edit (Edit.removeConnectable id)
          refuse .foreignNetwork
        emit (.connectableCreated id d.kind)
        k id) s fun _ _ => True := by
  intro hs
  obtain ⟨id, n, c, hcreate, hg, hc, -, -, hterm⟩ | ⟨f, hcreate, hf⟩ := d.create_cases hs
  · have hentered : (edit d.create) s = .ok id { s with network := n } := by
      simp only [edit, hcreate]
    by_cases howner : d.owner = n.serial
    · have hstep : Step tight doomed s ⟨n, s.events ++ [.connectableCreated id d.kind]⟩ :=
        .gain hg (fun _ h => by cases h) rfl rfl
      refine Traced.onward (.single hstep) ?_ (hk id _ c hc hterm) hs
      rw [bind_apply, hentered]
      simp only [network, bind_apply, get_apply, pure_apply, howner, ne_eq, not_true, if_false]
      rfl
    · obtain ⟨-, m, -, hremove, hm, hindex, -⟩ | ⟨hno, -⟩ :=
        Edit.removeConnectable_cases hg.coherent id
      · have hsame : m.index = s.network.index := by
          rw [hindex, hg.index_eq, erase_insert_of_not_mem hg.fresh]
        have hleft : (edit (Edit.removeConnectable id)) { s with network := n } =
            .ok () { s with network := m } := by
          simp only [edit, hremove]
        refine Traced.onward (.single (.quiet hm hsame)) ?_
          (Traced.refuse (f := .foreignNetwork) (by simp [Fault.kind])) hs
        rw [bind_apply, hentered]
        simp only [network, bind_apply, get_apply, pure_apply, howner, ne_eq, not_false_eq_true,
          if_true, hleft]
        rfl
      · exact absurd hc (hno c)
  · have hrefused : (edit d.create) s = .error f s := by
      simp only [edit, hcreate]
    rw [bind_apply, hrefused]
    exact ⟨hf, s, .refl, Or.inl rfl⟩

omit [Numbering] in
theorem sides_of_found {m : FeederBays} {sides : List BaySide}
    (h : sides.map (fun x => (x.side, x.bay)) = m.draft.sides.zip m.bays) :
    (∀ x ∈ sides, x.side ∈ m.draft.sides) ∧ (sides.map (·.side)).Nodup := by
  have hfst : sides.map (·.side) = (m.draft.sides.zip m.bays).map (·.1) := by
    rw [← h, List.map_map]
    rfl
  have hsub : (sides.map (·.side)).Sublist m.draft.sides := by
    rw [hfst, List.zip_eq_zip_take_min, List.map_fst_zip (by simp)]
    exact List.take_sublist _ _
  exact ⟨fun x hx => hsub.subset (List.mem_map_of_mem hx), hsub.nodup m.draft.nodup_sides⟩

theorem traced_steps (m : FeederBays) (naming : NamingStrategy) (hd : ∀ vl, ¬doomed vl) :
    Traced tight doomed (m.steps naming) s fun _ _ => True := by
  refine Traced.bind (traced_findSides _) fun sides t hsides => ?_
  obtain ⟨hin, hnodup⟩ := sides_of_found hsides.2.1
  refine Traced.bind (traced_chooseTerminals m.force m.draft sides hin hnodup
    (Nat.le_of_eq (Nat.zero_add _)) (.empty _ _)) ?_
  intro hx u hy
  obtain ⟨d, ranks⟩ := hx
  have hchosen : Chosen d ranks := hy.2.chosen
  refine traced_enter fun id v c hc hcd => ?_
  refine Traced.bind (builds_createBays hd naming hc _ {} hcd hchosen) fun position w _ => ?_
  refine Traced.ite (fun _ => ?_) fun _ => Traced.pure trivial
  refine Traced.quiet fun hw => ?_
  obtain ⟨-, n, -, hok, hn, hi, -⟩ | ⟨-, hr⟩ :=
    Edit.setFeederPosition_cases hw id (some position)
  · exact Or.inl ⟨(), n, hok, hn, hi, trivial⟩
  · exact Or.inr hr

end FeederBays

namespace FeederRemoval

variable {tight : Prop} {doomed : String → Prop} {s : Session} {m : FeederRemoval}

/-- Equipment that is there leaves after its bays, without a fault. -/
theorem steps_of_found (hs : s.network.Coherent tight) {c : Connectable}
    (hc : s.network.connectable? m.connectable = some c) (hb : c.isBusbarSection = false) :
    ∃ t u, pruneBays m.connectable (c.terminals.map (·.2)) s = .ok () t ∧
      Edit.removeConnectable m.connectable t.network = .ok () u.network ∧
      Steps tight doomed s u ∧ ∀ strict, m.steps strict s = .ok () u := by
  have hk := keeps_of_connectable? hc
  have hts : ∀ t ∈ c.terminals.map (·.2), ∃ side, (side, t) ∈ c.terminals := fun t ht => by
    obtain ⟨⟨side, u⟩, hu, rfl⟩ := List.mem_map.mp ht
    exact ⟨side, hu⟩
  have hpruned : Smooth tight doomed (pruneBays m.connectable (c.terminals.map (·.2))) s
      fun _ t => s.Retains t :=
    smooth_pruneBays m.connectable (c.terminals.map (·.2)) hk hts
  obtain ⟨_, t, hprune, hst, hkept⟩ := hpruned hs
  have hk := hkept _ c hk
  obtain ⟨-, n, -, hremove, hn, hindex, -⟩ | ⟨hno, -⟩ :=
    Edit.removeConnectable_cases (hst.coherent hs) m.connectable
  · have hmem := (hst.coherent hs).mem_index (.connectable hk)
    refine ⟨t, ⟨n, t.events ++ [.connectableRemoved m.connectable c.kind]⟩, hprune, hremove,
      hst.tail (.lose hn hmem hindex rfl rfl), fun strict => ?_⟩
    simp only [steps, network, bind_apply, get_apply, pure_apply, hc, hb, Bool.false_eq_true,
      if_false, hprune, edit, hremove]
    rfl
  · exact absurd hk (hno c)

theorem settled_steps (m : FeederRemoval) : Settled tight doomed m.steps s := by
  intro hs
  cases hc : s.network.connectable? m.connectable with
  | none =>
    have hrun : ∀ strict, m.steps strict s =
        giveUp strict (.connectableNotFound m.connectable) s := fun strict => by
      simp only [steps, network, bind_apply, get_apply, pure_apply, hc]
    simp only [hrun]
    exact Or.inr ⟨_, _, s, by simp [Fault.kind], Or.inl rfl, .refl, rfl, rfl⟩
  | some c =>
    cases hb : c.isBusbarSection with
    | true =>
      have hrun : ∀ strict, m.steps strict s =
          giveUp strict (.feederIsBusbarSection m.connectable) s := fun strict => by
        simp only [steps, network, bind_apply, get_apply, pure_apply, hc, hb, if_true]
      simp only [hrun]
      exact Or.inr ⟨_, _, s, by simp [Fault.kind], Or.inl rfl, .refl, rfl, rfl⟩
    | false =>
      obtain ⟨-, u, -, -, hst, hrun⟩ := steps_of_found hs hc hb
      exact Or.inl ⟨u, hst, hrun⟩

end FeederRemoval

end Switchyard
