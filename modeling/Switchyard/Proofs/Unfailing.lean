import Switchyard.Proofs.Refitting

namespace Switchyard

open Std Network

namespace Edit

variable {n m : Network} {id vl : String} {f : Fault}

theorem claimId_error {unique : Bool} {kind : ObjectKind} {holder : Option String}
    (h : claimId id unique kind holder n = .error f m) :
    unique = false ∧ ∃ e, n.index[id]? = some e ∧ f = .idTaken n.id e.kind id := by
  cases unique with
  | true =>
    rw [claimId_unique] at h
    cases h
  | false =>
    refine ⟨rfl, ?_⟩
    cases hi : n.index[id]? with
    | none =>
      rw [claimId_own (by simpa using hi)] at h
      cases h
    | some taken =>
      simp only [claimId, bind_apply, get_apply, hi] at h
      cases h
      exact ⟨taken, rfl, rfl⟩

theorem checkTerminal_error {t : Terminal} (h : checkTerminal t n = .error f m) :
    ¬n.Free t ∧ ∀ node a, t.node? = some node → n.HoldsAt t.voltageLevel node a →
      f = .nodeTaken node t.voltageLevel a.connectable := by
  refine ⟨fun hfree => ?_, fun node a ht ha => ?_⟩
  · obtain ⟨vl, connection⟩ := t
    cases connection with
    | node node =>
      obtain ⟨w, hw, hnot⟩ := hfree
      obtain ⟨v, hv, htop⟩ := inside?_eq_some_iff.mp hw
      have hnone : w.terminals[node]? = none := ExtTreeMap.getElem?_eq_none hnot
      simp only [checkTerminal, bind_apply, get_apply, hv, htop, hnone] at h
      cases h
    | bus bus =>
      obtain ⟨l, hl, hb⟩ := hfree
      obtain ⟨v, hv, htop⟩ := inside?_eq_some_iff.mp hl
      have hbus : l.buses.contains bus = true := hb
      simp only [checkTerminal, bind_apply, get_apply, hv, htop, hbus] at h
      cases h
  · obtain ⟨vl, connection⟩ := t
    cases connection with
    | node k =>
      obtain ⟨w, hw, hheld⟩ := ha
      obtain ⟨v, hv, htop⟩ := inside?_eq_some_iff.mp hw
      cases ht
      simp only [checkTerminal, bind_apply, get_apply, hv, htop, hheld] at h
      cases h
      rfl
    | bus bus => cases ht

theorem checkTerminals_error {t u : Terminal} (h : checkTerminals [] [t, u] n = .error f m) :
    (∃ x ∈ [t, u], checkTerminal x n = .error f n) ∨
      t = u ∧ ∃ node, u.node? = some node ∧ f = .nodeShared node u.voltageLevel := by
  obtain ⟨-, ht⟩ | ⟨g, ht, -⟩ := checkTerminal_cases n t
  · rw [checkTerminals_next ht (by simp)] at h
    obtain ⟨-, hu⟩ | ⟨g, hu, -⟩ := checkTerminal_cases n u
    · by_cases hshared : u.node?.isSome ∧ u ∈ [t]
      · obtain ⟨node, hnode⟩ := Option.isSome_iff_exists.mp hshared.1
        rw [checkTerminals_shared hu hnode hshared.2] at h
        cases h
        exact Or.inr ⟨(List.mem_singleton.mp hshared.2).symm, node, hnode, rfl⟩
      · rw [checkTerminals_next hu hshared] at h
        cases h
    · rw [checkTerminals_refused hu] at h
      cases h
      exact Or.inl ⟨u, by simp, hu⟩
  · rw [checkTerminals_refused ht] at h
    cases h
    exact Or.inl ⟨t, by simp, ht⟩

theorem enter_error (hn : n.Coherent False) {ts : List (Side × Terminal)} {unique : Bool}
    {make : String → Connectable} (h : enter ts id unique make n = .error f m) :
    (∃ k, checkTerminals [] (ts.map (·.2)) n = .error f k) ∨
      unique = false ∧ ∃ e, n.index[id]? = some e ∧ f = .idTaken n.id e.kind id := by
  obtain ⟨hfree, -, hpair, hcheck⟩ | ⟨g, hcheck, -⟩ := checkTerminals_cases n [] (ts.map (·.2))
  · refine Or.inr ?_
    cases hclaim : claimId id unique (make id).kind (make id).holder n with
    | error g k =>
      simp only [enter, bind_apply, hcheck, hclaim] at h
      cases h
      exact claimId_error hclaim
    | ok given k =>
      obtain ⟨-, -, rfl⟩ := claimId_eq_ok hclaim
      have hfree : ∀ x ∈ ts, n.Free x.2 := fun x hx => hfree x.2 (List.mem_map_of_mem hx)
      have hfirm : ∀ vl w, (n.register given ⟨(make id).kind, (make id).holder⟩).inside? vl =
          some (.nodeBreaker w) → w.Firm False := fun vl w hw => hn.firm_wiring hw
      obtain ⟨j, hattach, -⟩ := attachTerminals_spec hfirm given hfree hpair
      simp only [enter, bind_apply, hcheck, hclaim, hattach, modify_apply, pure_apply] at h
      cases h
  · refine Or.inl ⟨n, ?_⟩
    simp only [enter, bind_apply, hcheck] at h
    cases h
    exact hcheck

end Edit

section Creation

variable {n : Network} {vl : String}

theorem SwitchDraft.create_ok {d : SwitchDraft} {w : Wiring}
    (hw : n.inside? d.voltageLevel = some (.nodeBreaker w)) (hne : d.node1 ≠ d.node2)
    (hunique : d.unique = true) : ∃ id m, d.create n = .ok id m := by
  simp only [create, bind_apply, Edit.wiring_of_inside hw, if_neg hne, hunique,
    Edit.claimId_unique]
  rw [Edit.wiring_of_inside (n := n.register _ ⟨.switch, some d.voltageLevel⟩) hw]
  exact ⟨_, _, rfl⟩

theorem BusDraft.create_ok {d : BusDraft} {l : BusLayout}
    (hl : n.inside? d.voltageLevel = some (.busBreaker l)) (hunique : d.unique = true) :
    ∃ id m, d.create n = .ok id m := by
  simp only [create, bind_apply, Edit.busLayout_of_inside hl, hunique, Edit.claimId_unique]
  rw [Edit.busLayout_of_inside (n := n.register _ ⟨.bus, some d.voltageLevel⟩) hl]
  exact ⟨_, _, rfl⟩

theorem BusDraft.hasBus_of_create {m : Network} {id : String} {d : BusDraft}
    (hok : d.create n = .ok id m) :
    m.HasBus d.voltageLevel id ∧
      ∀ bus, n.HasBus d.voltageLevel bus → m.HasBus d.voltageLevel bus := by
  obtain ⟨l, hl, -, rfl⟩ := BusDraft.create_eq_ok hok
  have hset : ((n.register id ⟨.bus, some d.voltageLevel⟩).setTopology d.voltageLevel
      (.busBreaker { l with buses := l.buses.insert id ⟨id, d.name, d.voltageLevel⟩ })).inside?
        d.voltageLevel =
      some (.busBreaker { l with buses := l.buses.insert id ⟨id, d.name, d.voltageLevel⟩ }) := by
    rw [inside?_setTopology, if_pos rfl]
    exact congrArg (Option.map fun _ => _) hl
  refine ⟨⟨_, hset, by simp⟩, fun bus hbus => ⟨_, hset, ?_⟩⟩
  obtain ⟨l', hl', hb⟩ := hbus
  cases hl.symm.trans hl'
  exact ExtTreeMap.mem_insert.mpr (Or.inr hb)

theorem BusSwitchDraft.create_ok {d : BusSwitchDraft} (h1 : n.HasBus d.voltageLevel d.bus1)
    (h2 : n.HasBus d.voltageLevel d.bus2) (hunique : d.unique = true) :
    ∃ id m, d.create n = .ok id m := by
  obtain ⟨l, hl, hb1⟩ := h1
  obtain ⟨l', hl', hb2⟩ := h2
  cases hl.symm.trans hl'
  have hb1 : l.buses.contains d.bus1 = true := hb1
  have hb2 : l.buses.contains d.bus2 = true := hb2
  simp only [create, bind_apply, Edit.busLayout_of_inside hl, hb1, hb2, Bool.not_true,
    Bool.false_eq_true, if_false, hunique, Edit.claimId_unique]
  rw [Edit.busLayout_of_inside (n := n.register _ ⟨.switch, some d.voltageLevel⟩) hl]
  exact ⟨_, _, rfl⟩

end Creation

namespace Network

variable {n m : Network} {S : Set Switch} {C : Set Connectable} {vl id : String}

theorem Coherent.free_of_unplaced (h : n.Coherent False) {w : Wiring} {node : Node}
    (hw : n.inside? vl = some (.nodeBreaker w)) (hnew : n.Unplaced vl node) :
    n.Free (.atNode vl node) :=
  ⟨w, hw, fun hm => hnew w hw ((h.sound vl w hw).terminal_placed node hm)⟩

theorem Coherent.ne_rail_of_unplaced (h : n.Coherent False) {node : Node}
    (hnew : n.Unplaced vl node) {r : Rail} (hr : n.HasRail vl r) : node ≠ r.node := by
  rintro rfl
  obtain ⟨w, hw, ha⟩ := h.holds_rail hr
  have hheld : r.node ∈ w.terminals := mem_iff_exists_getElem?.mpr ⟨_, ha⟩
  exact hnew w hw ((h.sound vl w hw).terminal_placed _ hheld)

namespace Extended

theorem hasBus_iff (h : Extended ∅ S C n m) {bus : String} : m.HasBus vl bus ↔ n.HasBus vl bus := by
  have hmem : vl ∈ m.voltageLevels ↔ vl ∈ n.voltageLevels := mem_voltageLevels_of_shell h.shell
  constructor
  · rintro ⟨l, hl, hb⟩
    have hvl : vl ∈ n.voltageLevels := by
      rw [← hmem, ← inside?_isSome_iff, hl, Option.isSome_some]
    obtain ⟨t, ht⟩ := Option.isSome_iff_exists.mp (inside?_isSome_iff.mpr hvl)
    obtain ⟨u, hu, ha⟩ := h.inside vl (Set.notMem_empty vl) t ht
    cases hl.symm.trans hu
    cases ha
    exact ⟨l, ht, hb⟩
  · rintro ⟨l, hl, hb⟩
    obtain ⟨u, hu, ha⟩ := h.inside vl (Set.notMem_empty vl) _ hl
    cases ha
    exact ⟨l, hu, hb⟩

/-- Where a connectable besides is attached, the first network has room. -/
theorem free_of_mem (h : Extended ∅ S C n m) {c : Connectable} (hc : c ∈ C) {x : Side × Terminal}
    (hx : x ∈ c.terminals) : n.Free x.2 := by
  obtain ⟨side, vl, connection⟩ := x
  have hattached : m.Attaches ⟨c.id, side⟩ ⟨vl, connection⟩ := ⟨c, h.keeps_new hc, hx⟩
  cases connection with
  | bus bus => exact h.hasBus_iff.mp (h.coherent.hasBus _ vl bus hattached)
  | node node =>
    obtain ⟨w', hw', -⟩ := (h.coherent.holdsAt_iff vl node ⟨c.id, side⟩).mpr hattached
    obtain ⟨w, hw, -, -, ha⟩ := h.toWired.wiring_old (Set.notMem_empty vl) hw'
    have hside : (node, (⟨c.id, side⟩ : Attachment)) ∈ terminalsAt (attachments C) vl :=
      ⟨c, hc, rfl, hx⟩
    exact ⟨w, hw, (ha.terminal_new node _ hside).2⟩

theorem free_of_free (h : Extended ∅ S C n m) {x : Terminal} (hx : m.Free x) : n.Free x := by
  obtain ⟨vl, connection⟩ := x
  cases connection with
  | bus bus => exact h.hasBus_iff.mp hx
  | node node =>
    obtain ⟨w', hw', hnot⟩ := hx
    obtain ⟨w, hw, -⟩ := h.toWired.wiring_old (Set.notMem_empty vl) hw'
    refine ⟨w, hw, fun hmem => hnot ?_⟩
    obtain ⟨a, ha⟩ := mem_iff_exists_getElem?.mp hmem
    obtain ⟨c, hc, hside⟩ := (h.base.holdsAt_iff vl node a).mp ⟨w, hw, ha⟩
    have hkept : m.Keeps a.connectable c := (h.keeps_iff _ c).mpr (Or.inl hc)
    obtain ⟨u, hu, hb⟩ := (h.coherent.holdsAt_iff vl node a).mpr ⟨c, hkept, hside⟩
    cases hw'.symm.trans hu
    exact mem_iff_exists_getElem?.mpr ⟨a, hb⟩

theorem not_mem_index (h : Extended ∅ S C n m) {c : Connectable} (hc : c ∈ C) : c.id ∉ n.index := by
  intro hm
  obtain ⟨entry, he⟩ := mem_iff_exists_getElem?.mp hm
  have hstored := h.getElem?_index he
  have hentry : entry = c.entry :=
    h.coherent.entry_unique ((h.coherent.index_iff _ _).mp hstored)
      (.connectable (h.keeps_new hc))
  subst hentry
  rcases stores_iff.mp ((h.base.index_iff _ _).mp he) with
    ⟨-, hk⟩ | ⟨-, hk⟩ | ⟨vl, t, kind, ht, hh, hk⟩ | ⟨d, hd, -⟩
  · cases c <;> cases hk
  · cases c <;> cases hk
  · have hholder : c.entry.voltageLevel = none := h.free c hc
    rw [hk] at hholder
    cases hholder
  · exact h.fresh c hc d hd

end Extended

end Network

namespace Run

variable {n : Network} {s t : Session} {naming : NamingStrategy} {vl id base : String}
  {f : Fault}

theorem sure_createSwitch {kind : SwitchKind} {a b : Node} {isOpen fictitious : Bool}
    (hw : ∃ w, s.network.inside? vl = some (.nodeBreaker w)) (hne : a ≠ b) :
    (createSwitch vl kind id a b isOpen fictitious).Sure s := by
  obtain ⟨w, hw⟩ := hw
  let draft : SwitchDraft :=
    { voltageLevel := vl, id, kind, node1 := a, node2 := b, isOpen, retained := kind = .breaker,
      fictitious, unique := true }
  obtain ⟨given, m, hok⟩ := SwitchDraft.create_ok (d := draft) hw hne rfl
  exact (sure_edit hok).bind fun _ _ _ => fails_emit _

theorem sure_createDisconnectors (hs : s.network.Coherent False)
    (hw : ∃ w, s.network.inside? vl = some (.nodeBreaker w)) {fork : Node} {target : String}
    {rails : List Rail} (hrails : ∀ r ∈ rails, fork ≠ r.node) :
    (createDisconnectors naming vl fork base target rails).Sure s := by
  induction rails generalizing s with
  | nil => exact fails_pure ()
  | cons r rest ih =>
    obtain ⟨hr, hrest⟩ := List.forall_mem_cons.mp hrails
    refine (sure_createSwitch hw hr).bind fun _ t ht => ?_
    have hmade : (createSwitch vl .disconnector
        (naming.busbarDisconnector r.id base fork r.node) fork r.node (r.id != target)
        false).Rewires (· = .switch) s := makes_createSwitch rfl
    obtain ⟨ht, hfit⟩ := hmade.refitted hs ht
    exact ih ht (hfit.wiring hw) hrest

theorem sure_createBay (hs : s.network.Coherent False)
    (hw : ∃ w, s.network.inside? vl = some (.nodeBreaker w)) {bay : BayNodes} {target : String}
    {rails : List Rail} (hne : bay.equipment ≠ bay.fork)
    (hrails : ∀ r ∈ rails, bay.fork ≠ r.node) :
    (createBay naming vl bay base target rails).Sure s := by
  refine (sure_createSwitch hw hne).bind fun _ t ht => ?_
  have hmade : (createSwitch vl .breaker (naming.breaker base) bay.equipment bay.fork false
      false).Rewires (· = .switch) s := makes_createSwitch rfl
  obtain ⟨ht, hfit⟩ := hmade.refitted hs ht
  exact sure_createDisconnectors ht (hfit.wiring hw) hrails

/-- A bay can be laid at a busbar section if its fork is at none. -/
theorem sure_createLineBay (hs : s.network.Coherent False) {rail : Rail}
    (hr : s.network.HasRail vl rail) {nodes : BayNodes} (hne : nodes.equipment ≠ nodes.fork)
    (hfork : ∀ r, s.network.HasRail vl r → nodes.fork ≠ r.node) :
    (createLineBay naming vl rail base nodes).Sure s := by
  refine (sure_baySections vl rail.id rail.node).bind fun rails u hrails => ?_
  obtain ⟨rfl, rfl⟩ := baySections_eq_ok.mp hrails
  refine Fails.network_bind ?_
  refine (sure_createBay hs (hr.wiring hs) hne fun r hin => ?_).bind fun _ _ _ => ?_
  · exact hfork r (hs.mem_bayRails hr hin)
  · exact Fails.ite (fun _ => fails_emit _) fun _ => fails_pure ()

theorem sure_createTwoBays (hs : s.network.Coherent False) {rail : Rail}
    (hr : s.network.HasRail vl rail) (hroom : s.network.Room vl 4) {base1 base2 : String} :
    (createTwoBays naming vl rail base1 base2).Sure s := by
  obtain ⟨w, hw⟩ := hr.wiring hs
  refine (sure_nextNode hw).bind fun first u hfirst => ?_
  obtain ⟨w', hw', rfl, rfl⟩ := nextNode_eq_ok.mp hfirst
  have hnew : ∀ i < 4, ∀ r, s.network.HasRail vl r → w'.nextNode + .ofNat i ≠ r.node :=
    fun i hi r hr => hs.ne_rail_of_unplaced (hroom.unplaced hi hw') hr
  refine (sure_createLineBay hs hr (by simp) (hnew 1 (by decide))).bind fun _ v hv => ?_
  have hmade : (createLineBay naming vl rail base1 ⟨w'.nextNode, w'.nextNode + 1⟩).Rewires
      (· = .switch) s := rewires_createLineBay (K := (· = .switch)) rfl
  obtain ⟨hcoherent, hfit⟩ := hmade.refitted hs hv
  refine (sure_createLineBay hcoherent (hfit.hasRail_iff.mpr hr) (by simp) fun r hr => ?_).bind
    fun _ _ _ => fails_pure _
  exact hnew 2 (by decide) r (hfit.hasRail_iff.mp hr)

theorem sure_createBusSwitch {bus1 bus2 : String} (h1 : s.network.HasBus vl bus1)
    (h2 : s.network.HasBus vl bus2) : (createBusSwitch vl id bus1 bus2).Sure s := by
  let draft : BusSwitchDraft := { voltageLevel := vl, id, bus1, bus2, unique := true }
  obtain ⟨given, m, hok⟩ := BusSwitchDraft.create_ok (d := draft) h1 h2 rfl
  exact (sure_edit hok).bind fun _ _ _ => fails_emit _

theorem sure_createBusBay {bus : String} (hbus : s.network.HasBus vl bus) :
    (createBusBay naming vl bus base).Sure s := by
  obtain ⟨l, hl, -⟩ := id hbus
  let draft : BusDraft := { voltageLevel := vl, id := naming.bus base, unique := true }
  obtain ⟨given, m, hok⟩ := BusDraft.create_ok (d := draft) hl rfl
  refine (sure_edit hok).bind fun x u hu => Fails.emit_bind ?_
  obtain ⟨k, hk, rfl⟩ := edit_eq_ok.mp hu
  obtain ⟨hnew, hold⟩ := BusDraft.hasBus_of_create hk
  exact (sure_createBusSwitch hnew (hold bus hbus)).bind fun _ _ _ => fails_pure _

theorem sure_removeLine (hs : s.network.Coherent False) {c : Connectable}
    (hc : s.network.Keeps id c) : (removeLine id).Sure s := by
  obtain ⟨-, m, -, hok, -⟩ | ⟨hno, -⟩ := Edit.removeConnectable_cases hs id
  · exact (sure_edit hok).bind fun _ _ _ => fails_emit _
  · exact absurd hc (hno c)

theorem sure_removeLines {l : List Branch} (hs : s.network.Coherent False)
    (hl : ∀ b ∈ l, s.network.Keeps b.id (.branch b)) (hnodup : l.Nodup) :
    (removeLines (l.map (·.id))).Sure s := by
  induction l generalizing s with
  | nil => exact fails_pure ()
  | cons b rest ih =>
    obtain ⟨hb, hrest⟩ := List.nodup_cons.mp hnodup
    obtain ⟨hkept, hl⟩ := List.forall_mem_cons.mp hl
    refine (sure_removeLine hs hkept).bind fun _ t ht => ?_
    have hone : Extended ∅ ∅ {.branch b} t.network s.network :=
      .of_removeConnectable hs hkept rfl (removeLine_eq_ok ht)
    refine ih hone.base (fun d hd => ?_) hrest
    have hne : d ≠ b := fun he => hb (he ▸ hd)
    exact (hone.keeps_iff_of_not_mem (by simpa using hne)).mp (hl d hd)

theorem sure_pruneLeft (hs : s.network.Coherent False) {left : List (String × Terminal)}
    (hleft : ∀ x ∈ left, ∀ node, x.2.node? = some node →
      ∃ w, s.network.inside? x.2.voltageLevel = some (.nodeBreaker w)) :
    (pruneLeft left).Sure s := by
  induction left generalizing s with
  | nil => exact fails_pure ()
  | cons x rest ih =>
    obtain ⟨hx, hrest⟩ := List.forall_mem_cons.mp hleft
    obtain ⟨line, vl, connection⟩ := x
    cases connection with
    | bus bus => exact ih hs hrest
    | node node =>
      have hsmooth : Smooth False (fun _ => False) (pruneBay line vl node) s fun _ t =>
          s.Retains t := smooth_pruneBay line node (hx node rfl)
      have hbay : (pruneBays line [⟨vl, .node node⟩]).Sure s :=
        (hsmooth.sure hs).bind fun _ _ _ => fails_pure ()
      refine hbay.bind fun _ t ht => ?_
      obtain ⟨_, u, hprune, hdone⟩ := bind_eq_ok.mp ht
      obtain ⟨-, rfl⟩ := pure_eq_ok.mp hdone
      have hmade : (pruneBay line vl node).Rewires (fun _ => False) s :=
        makes_pruneBay (fun _ => trivial) fun _ _ _ => trivial
      obtain ⟨hu, hfit⟩ := hmade.refitted hs hprune
      exact ih hu fun y hy k hk => hfit.wiring (hrest y hy k hk)

/-- A line is refused if one of its terminals is, if both are at one node, or if
it needs an id that is taken. -/
theorem createLine_fails (hs : s.network.Coherent False) {d : BranchDraft} {t1 t2 : Terminal}
    (h1 : d.terminal1 = some t1) (h2 : d.terminal2 = some t2) :
    (createLine d).Fails s fun f _ =>
      (∃ x ∈ [t1, t2], Edit.checkTerminal x s.network = .error f s.network) ∨
        (t1 = t2 ∧ ∃ node, t2.node? = some node ∧ f = .nodeShared node t2.voltageLevel) ∨
        d.unique = false ∧
          ∃ e, s.network.index[d.id]? = some e ∧ f = .idTaken s.network.id e.kind d.id := by
  refine (fails_edit fun f m hr => ?_).bind fun id u _ => Fails.emit_bind (fails_pure id)
  rw [BranchDraft.create_eq h1 h2] at hr
  rcases Edit.enter_error hs hr with ⟨k, hcheck⟩ | hid
  · rcases Edit.checkTerminals_error hcheck with hone | hboth
    · exact Or.inl hone
    · exact Or.inr (Or.inl hboth)
  · exact Or.inr (Or.inr hid)

/-- A line can be created at two free places apart, under an id not in use. -/
theorem sure_createLine (hs : s.network.Coherent False) {d : BranchDraft} {t1 t2 : Terminal}
    (h1 : d.terminal1 = some t1) (h2 : d.terminal2 = some t2) (hf1 : s.network.Free t1)
    (hf2 : s.network.Free t2) (hapart : t2.Apart t1)
    (hid : d.unique = true ∨ d.id ∉ s.network.index) : (createLine d).Sure s := by
  refine (createLine_fails hs h1 h2).mono fun f u hcause => ?_
  rcases hcause with ⟨x, hx, hrefused⟩ | ⟨rfl, node, hnode, -⟩ | ⟨hown, e, he, -⟩
  · refine (Edit.checkTerminal_error hrefused).1 ?_
    simp only [List.mem_cons, List.not_mem_nil, or_false] at hx
    rcases hx with rfl | rfl
    · exact hf1
    · exact hf2
  · exact hapart (Option.isSome_iff_exists.mpr ⟨node, hnode⟩) rfl
  · rcases hid with hunique | hnew
    · rw [hown] at hunique
      cases hunique
    · exact hnew (mem_iff_exists_getElem?.mpr ⟨e, he⟩)

theorem sure_removeVoltageLevelLeft (hs : s.network.Coherent False)
    (hvl : vl ∈ s.network.voltageLevels) : (removeVoltageLevelLeft vl).Sure s := by
  refine Fails.network_bind (Fails.ite (fun _ => fails_emit _) fun hempty => ?_)
  have hfree : s.network.equipmentIn vl = [] := by simpa using hempty
  have hok := (Edit.removeVoltageLevel_eq_ok hs).mpr ⟨⟨hvl, hfree⟩, rfl⟩
  refine (sure_edit hok).bind fun _ t ht => Fails.emit_bind ?_
  obtain ⟨k, hk, rfl⟩ := edit_eq_ok.mp ht
  cases hok.symm.trans hk
  have hleft := hs.withoutLevel hvl hfree
  cases hsub : s.network.voltageLevels[vl]?.bind (·.substation) with
  | none => exact fails_pure ()
  | some x =>
    obtain ⟨v, hv, hx⟩ := Option.bind_eq_some_iff.mp hsub
    have hmem := hs.substation_mem vl v x hv hx
    refine Fails.network_bind (Fails.ite (fun hnone => ?_) fun _ => fails_pure ())
    have hgone := (Edit.removeSubstation_eq_ok hleft).mpr ⟨⟨hmem, by simpa using hnone⟩, rfl⟩
    exact (sure_edit hgone).bind fun _ _ _ => fails_emit _

end Run

end Switchyard
