import Switchyard.Modification
import Switchyard.Proofs.FeederRoundTrip
import Switchyard.Proofs.Tours

namespace Switchyard

open Std Network

namespace Network

variable {n m k : Network} {w w' : Wiring} {start : Node}

/-- The nodes that lie around a node, without a busbar section on the way. -/
abbrev Within (n : Network) (w : Wiring) : Node → Node → Prop :=
  Reaches w.edgeList fun x => n.occupant w x ≠ .rail

/-- The edges of a bay are those of a tour around its start. -/
theorem tour_bay (n : Network) (w : Wiring) (start : Node) :
    ∃ hops, Tour w.edgeList (fun x => n.occupant w x ≠ .rail) start hops ∧
      (n.bay w start).links = hops.map fun h => ⟨h.source, h.target, h.edge.link⟩ := by
  let visit (seen : List Hop) (h : Hop) : Verdict × List Hop :=
    (if n.occupant w h.target = .rail then .leave else .onward, h :: seen)
  obtain ⟨hops, htour, hfold⟩ := walk_tour visit (fun x => n.occupant w x ≠ .rail)
    (fun s h => by simp [visit, ite_not]) w.edgeList start []
  have hseen : (w.hops start fun h => if n.occupant w h.target = .rail then .leave else .onward).2 =
      hops := by
    have hrev : (walk visit w.edgeList [start] [start] []).2 = hops.reverse := by
      rw [hfold]
      simp [visit]
    change (walk visit w.edgeList [start] [start] []).2.reverse = hops
    rw [hrev, List.reverse_reverse]
  refine ⟨hops, htour, ?_⟩
  have hfst := congrArg (List.map fun h : Hop => (⟨h.source, h.target, h.edge.link⟩ : Edge))
    (List.zipIdx_map_fst 0 hops)
  rw [List.map_map] at hfst
  rw [Bay.links, bay, hseen, List.map_map, ← hfst]
  rfl

theorem edge_of_mem_links {d : Edge} (h : d ∈ (n.bay w start).links) :
    ∃ e ∈ w.edgeList, e.Between d.node1 d.node2 ∧ n.Within w start d.node1 := by
  obtain ⟨hops, htour, hlinks⟩ := n.tour_bay w start
  rw [hlinks] at h
  obtain ⟨hop, hhop, rfl⟩ := List.mem_map.mp h
  obtain ⟨he, halong⟩ := htour.along hop hhop
  exact ⟨hop.edge, he, halong.between, htour.reached hop hhop⟩

theorem exists_link_of_within {a : Node} (ha : n.Within w start a) {e : Edge}
    (he : e ∈ w.edgeList) (ht : e.touches a = true) :
    ∃ d ∈ (n.bay w start).links, e.link = d.link ∧ e.Between d.node1 d.node2 := by
  obtain ⟨hops, htour, hlinks⟩ := n.tour_bay w start
  obtain ⟨hop, hhop, rfl⟩ := htour.covers a ha e he ht
  rw [hlinks]
  exact ⟨_, List.mem_map_of_mem hhop, rfl, (htour.along hop hhop).2.between⟩

/-- Pruning a bay cuts along edges that lie in it. -/
theorem within_of_cutAlong {node : Node} {e : Edge}
    (h : CutAlong ((n.bay w start).prune node) e) :
    ∃ a, n.Within w start a ∧ e.touches a = true := by
  obtain ⟨d, hd, hends⟩ := h
  obtain ⟨-, -, -, hreached⟩ := edge_of_mem_links (((n.bay w start).prune_subperm node).subset hd)
  exact ⟨d.node1, hreached, hends.touches_iff.mpr (Or.inl rfl)⟩

/-- The second network has the connectables of the first one. What is inside its
voltage levels is what is left of the first one, and is all of it off `X`. -/
structure Thins (X : Set String) (lost : String → Wiring → Edge → Prop) (n m : Network) :
    Prop where
  level : ∀ vl ∉ X, m.voltageLevels[vl]? = n.voltageLevels[vl]?
  shell : ∀ vl, m.shell? vl = n.shell? vl
  substations : m.substations = n.substations
  layout : ∀ vl l, n.inside? vl = some (.busBreaker l) → m.inside? vl = some (.busBreaker l)
  wiring : ∀ vl w, n.inside? vl = some (.nodeBreaker w) →
    ∃ w', m.inside? vl = some (.nodeBreaker w') ∧ w.Shrinks (lost vl w) w'

namespace Thins

variable {X : Set String} {lost lost' : String → Wiring → Edge → Prop}

theorem refl (n : Network) : Thins X lost n n where
  level := fun _ _ => rfl
  shell := fun _ => rfl
  substations := rfl
  layout := fun _ _ hl => hl
  wiring := fun _ w hw => ⟨w, hw, .refl w⟩

theorem of_voltageLevels (hv : m.voltageLevels = n.voltageLevels)
    (hs : m.substations = n.substations) : Thins X lost n m where
  level := fun _ _ => by rw [hv]
  shell := fun _ => by rw [shell?, shell?, hv]
  substations := hs
  layout := fun _ _ hl => by rwa [inside?, hv]
  wiring := fun _ w hw => ⟨w, by rwa [inside?, hv], .refl w⟩

theorem trans (h : Thins X lost n m) (h' : Thins X lost' m k)
    (hlost : ∀ vl w w' e, n.inside? vl = some (.nodeBreaker w) →
      m.inside? vl = some (.nodeBreaker w') → w.Shrinks (lost vl w) w' → lost' vl w' e →
        lost vl w e) : Thins X lost n k where
  level := fun vl hvl => (h'.level vl hvl).trans (h.level vl hvl)
  shell := fun vl => (h'.shell vl).trans (h.shell vl)
  substations := h'.substations.trans h.substations
  layout := fun vl l hl => h'.layout vl l (h.layout vl l hl)
  wiring := fun vl w hw => by
    obtain ⟨w', hw', hfirst⟩ := h.wiring vl w hw
    obtain ⟨w'', hw'', hlater⟩ := h'.wiring vl w' hw'
    exact ⟨w'', hw'', hfirst.trans (hlater.mono fun e he => hlost vl w w' e hw hw' hfirst he)⟩

theorem of_sameOff {vl : String} (h : n.SameOff {vl} m)
    (hw : n.inside? vl = some (.nodeBreaker w)) (hw' : m.inside? vl = some (.nodeBreaker w'))
    (hshrinks : w.Shrinks (lost vl w) w') (hvl : vl ∈ X) : Thins X lost n m := by
  have hother : ∀ x, x ≠ vl → m.inside? x = n.inside? x := fun x hx => by
    rw [inside?, inside?, h.level x hx]
  refine ⟨fun x hx => h.level x fun he => hx (he ▸ hvl), h.shell, h.substations,
    fun x l hl => ?_, fun x u hu => ?_⟩
  · by_cases hx : x = vl
    · subst hx
      cases hw.symm.trans hl
    · rwa [hother x hx]
  · by_cases hx : x = vl
    · subst hx
      cases hw.symm.trans hu
      exact ⟨w', hw', hshrinks⟩
    · exact ⟨u, (hother x hx).trans hu, .refl u⟩

end Thins

theorem Coherent.occupant_eq (hn : n.Coherent False) (hm : m.Coherent False)
    (hkeeps : ∀ id c, m.Keeps id c ↔ n.Keeps id c) {vl : String}
    (hw : n.inside? vl = some (.nodeBreaker w)) (hw' : m.inside? vl = some (.nodeBreaker w'))
    (node : Node) : m.occupant w' node = n.occupant w node := by
  have hterminal : w'.terminals[node]? = w.terminals[node]? := by
    ext a
    have hat : m.HoldsAt vl node a ↔ n.HoldsAt vl node a := by
      rw [hn.holdsAt_iff, hm.holdsAt_iff]
      simp only [Attaches, hkeeps]
    simpa only [HoldsAt, hw, hw', Option.some.injEq, Topology.nodeBreaker.injEq,
      exists_eq_left'] using hat
  have hrail : ∀ x, m.busbarSections.contains x = n.busbarSections.contains x := fun x => by
    have hall : ∀ b, m.busbarSections[x]? = some b ↔ n.busbarSections[x]? = some b := fun b =>
      hkeeps x (.busbarSection b)
    simp only [ExtTreeMap.contains_eq_isSome_getElem?]
    rw [Option.ext hall]
  unfold occupant
  rw [hterminal]
  simp only [hrail]

/-- What is left of a wiring is reached as before, if the occupants are the same. -/
theorem Within.of_shrinks {P : Edge → Prop} (h : w.Shrinks P w')
    (hoccupant : ∀ x, m.occupant w' x = n.occupant w x) {a : Node}
    (ha : m.Within w' start a) : n.Within w start a := by
  refine Relation.ReflTransGen.mono (fun x y hxy => ?_) _ _ ha
  obtain ⟨⟨e, he, hends⟩, hy⟩ := hxy
  exact ⟨⟨e, h.edgeList_subset he, hends⟩, fun hrail => hy ((hoccupant y).trans hrail)⟩

/-- A terminal of the connectable leads to the edge without a busbar section on the way. -/
def LeadsTo (n : Network) (c : Connectable) (vl : String) (w : Wiring) (e : Edge) : Prop :=
  ∃ side node a, (side, .atNode vl node) ∈ c.terminals ∧ n.Within w node a ∧ e.touches a = true

end Network

/-- The voltage levels in which a connectable is at a node. -/
def Connectable.levels (c : Connectable) : Set String :=
  {vl | ∃ side node, (side, .atNode vl node) ∈ c.terminals}

namespace Run

variable {n : Network} {c : Connectable} {s t : Session}

/-- Pruning the bays of equipment takes only what that equipment meets. -/
theorem thins_pruneBays (hn : n.Coherent False) (hs : s.network.Coherent False)
    (hkeeps : ∀ id d, s.network.Keeps id d ↔ n.Keeps id d)
    (h : Thins c.levels (n.LeadsTo c) n s.network) {id : String} {ts : List Terminal}
    (hts : ∀ u ∈ ts, ∃ side, (side, u) ∈ c.terminals) (hok : pruneBays id ts s = .ok () t) :
    t.network.Coherent False ∧ (∀ id d, t.network.Keeps id d ↔ n.Keeps id d) ∧
      Thins c.levels (n.LeadsTo c) n t.network := by
  induction ts generalizing s with
  | nil =>
    cases hok
    exact ⟨hs, hkeeps, h⟩
  | cons u rest ih =>
    obtain ⟨hu, hrest⟩ := List.forall_mem_cons.mp hts
    obtain ⟨vl, connection⟩ := u
    cases connection with
    | bus bus => exact ih hs hkeeps h hrest hok
    | node node =>
      obtain ⟨side, hside⟩ := hu
      simp only [pruneBays, Terminal.node?, bind_eq_ok] at hok
      obtain ⟨_, v, hprune, hrun⟩ := hok
      have hprunes := prunes_of_pruneBay hs hprune
      have hsame := hprunes.sameOff (Set.mem_singleton vl)
      obtain ⟨w, w', hw, hw', hshrinks, -⟩ := hprunes.shrinks hs
      refine ih (hprunes.coherent hs) (fun x d => (hsame.keeps_iff x d).trans (hkeeps x d)) ?_ hrest
        hrun
      have hlevel : vl ∈ c.levels := ⟨side, node, hside⟩
      have hstep : Thins c.levels
          (fun x u e => x = vl ∧ ∃ a, s.network.Within u node a ∧ e.touches a = true)
          s.network v.network :=
        .of_sameOff hsame hw hw' (hshrinks.mono fun e he => ⟨rfl, within_of_cutAlong he⟩) hlevel
      refine h.trans hstep ?_
      rintro x u u' e hu hu' hleft ⟨rfl, a, ha, ht⟩
      exact ⟨side, node, a, hside, ha.of_shrinks hleft (hn.occupant_eq hs hkeeps hu hu'), ht⟩

end Run

namespace Network.Thins

variable {X : Set String} {lost : String → Wiring → Edge → Prop} {n m : Network}

theorem setTopology {vl : String} {w w' : Wiring} (hw : n.inside? vl = some (.nodeBreaker w))
    (hshrinks : w.Shrinks (lost vl w) w') (hvl : vl ∈ X) :
    Thins X lost n (n.setTopology vl (.nodeBreaker w')) :=
  of_sameOff (.setTopology (Set.mem_singleton vl) _) hw (inside?_setTopology_self hw _) hshrinks hvl

theorem of_detachTerminals (hn : ∀ vl w, n.inside? vl = some (.nodeBreaker w) → w.Laid)
    {ts : List Terminal} (hts : ∀ vl node, .atNode vl node ∈ ts → vl ∈ X)
    (hok : Edit.detachTerminals ts n = .ok () m) : Thins X (fun _ _ _ => False) n m := by
  induction ts generalizing n with
  | nil =>
    cases hok
    exact refl _
  | cons u rest ih =>
    have hrest : ∀ vl node, .atNode vl node ∈ rest → vl ∈ X := fun vl node hin =>
      hts vl node (List.mem_cons_of_mem u hin)
    obtain ⟨vl, connection⟩ := u
    cases connection with
    | bus bus => exact ih hn hrest hok
    | node node =>
      obtain ⟨w, hw, hrun⟩ := Edit.detachTerminals_eq_ok hok
      have hlaid := hn vl w hw
      have hstep : Thins X (fun _ _ _ => False) n
          (n.setTopology vl (.nodeBreaker (w.detach node))) :=
        setTopology hw (hlaid.shrinks_detach node) (hts vl node List.mem_cons_self)
      refine hstep.trans (ih (fun x u hu => ?_) hrest hrun) fun _ _ _ _ _ _ _ => False.elim
      · rw [inside?_setTopology] at hu
        split at hu
        next he =>
          subst he
          rw [hw] at hu
          cases hu
          exact (hlaid.eraseTerminal node).releaseNode node
        next => exact hn x u hu

end Network.Thins

/-- Equipment leaves a network. What it led to may go with it, and everything
else stays as it was. -/
structure Network.Withdraws (n : Network) (c : Connectable) (m : Network) : Prop extends
    Thins c.levels (n.LeadsTo c) n m where
  gone : m.connectable? c.id = none
  others : ∀ id, id ≠ c.id → m.connectable? id = n.connectable? id
  switches : ∀ vl w w', n.inside? vl = some (.nodeBreaker w) →
    m.inside? vl = some (.nodeBreaker w') → ∀ (id : String) s, w.switches[id]? = some s →
      id ∉ w'.switches → n.LeadsTo c vl w s.edge
  terminals : ∀ vl node a, m.HoldsAt vl node a ↔ n.HoldsAt vl node a ∧ a.connectable ≠ c.id

namespace FeederRemoval

variable {n m : Network} {c : Connectable}

theorem withdraws_of_keeps (hn : n.Coherent False) (hm : m.Coherent False)
    (h : Thins c.levels (n.LeadsTo c) n m)
    (hkeeps : ∀ id d, m.Keeps id d ↔ n.Keeps id d ∧ id ≠ c.id) : n.Withdraws c m where
  toThins := h
  gone := by
    rw [Option.eq_none_iff_forall_ne_some]
    intro d hd
    exact ((hkeeps _ d).mp (keeps_of_connectable? hd)).2 rfl
  others := fun id hid => by
    ext d
    rw [hm.connectable?_eq_some_iff, hn.connectable?_eq_some_iff, hkeeps]
    exact and_iff_left hid
  switches := fun vl w w' hw hw' id s hs hno => by
    obtain ⟨u, hu, hshrinks⟩ := h.wiring vl w hw
    cases hu.symm.trans hw'
    exact hshrinks.of_switch (hn.sound vl w hw) (hm.sound vl w' hw') hs hno
  terminals := fun vl node a => by
    rw [hm.holdsAt_iff, hn.holdsAt_iff]
    simp only [Attaches, hkeeps]
    grind

/-- How the removal of equipment goes: it prunes the bays, and then takes the
equipment alone out of what is left. -/
structure Course (n : Network) (c : Connectable) (t : Session) (out : Outcome) : Prop where
  pruned : Run.pruneBays c.id (c.terminals.map (·.2)) ⟨n, []⟩ = .ok () t
  coherent : t.network.Coherent False ∧ out.network.Coherent False
  kept : ∀ id d, t.network.Keeps id d ↔ n.Keeps id d
  thinned : Thins c.levels (n.LeadsTo c) n t.network
  taken : ∀ id d, out.network.Keeps id d ↔ n.Keeps id d ∧ id ≠ c.id
  detached : Thins c.levels (fun _ _ _ => False) t.network out.network
  succeeds : out.Succeeds

theorem course_apply (hn : n.Coherent False) (hc : n.connectable? c.id = some c)
    (hb : c.isBusbarSection = false) (naming : NamingStrategy) (strict : Bool) :
    ∃ t, Course n c t ((Modification.feederRemoval ⟨c.id⟩).apply n naming strict) := by
  obtain ⟨t, u, hprune, hremove, hsteps, hrun⟩ :=
    @steps_of_found _ False (fun _ => False) ⟨n, []⟩ ⟨c.id⟩ hn c hc hb
  have hout : (Modification.feederRemoval ⟨c.id⟩).apply n naming strict =
      ⟨u.network, u.events, none⟩ := by
    simp only [Modification.apply, Modification.run, Run.outcome, hrun strict]
  obtain ⟨more, hevents, hquiet⟩ := hsteps.events
  rw [List.nil_append] at hevents
  obtain ⟨ht, hkeeps, hthins⟩ := Run.thins_pruneBays hn hn (fun _ _ => Iff.rfl) (.refl n)
    (fun x hx => by simpa using hx) hprune
  obtain ⟨d, k, -, hok, hk, -, hleft⟩ | ⟨hno, -⟩ := Edit.removeConnectable_cases ht c.id
  · cases hok.symm.trans hremove
    obtain ⟨d, hd, hdetach⟩ := Edit.removeConnectable_eq_ok hremove
    cases hn.keeps_unique ((hkeeps _ _).mp hd) (keeps_of_connectable? hc)
    have htaken : Thins c.levels (fun _ _ _ => False) t.network
        ((t.network.take c.id c).forget c.id) :=
      .of_voltageLevels (voltageLevels_take _ _ _) (substations_take _ _ _)
    have hdetached : Thins c.levels (fun _ _ _ => False) ((t.network.take c.id c).forget c.id)
        u.network := by
      refine Thins.of_detachTerminals (fun vl w hw => ?_) (fun vl node hin => ?_) hdetach
      · exact (ht.sound vl w ((inside?_take _ _ _ vl).symm.trans hw)).toLaid
      · obtain ⟨⟨side, x⟩, hx, rfl⟩ := List.mem_map.mp hin
        exact ⟨side, node, hx⟩
    rw [hout]
    exact ⟨t, hprune, ⟨ht, hk⟩, hkeeps, hthins,
      fun id x => (hleft id x).trans (and_congr_left' (hkeeps id x)),
      htaken.trans hdetached fun _ _ _ _ _ _ _ => False.elim, rfl, hevents ▸ hquiet⟩
  · exact absurd ((hkeeps _ _).mpr (keeps_of_connectable? hc)) (hno c)

/-- The equipment leaves with nothing but what it led to. -/
theorem Course.withdraws {t : Session} {out : Outcome} (hn : n.Coherent False)
    (h : Course n c t out) : n.Withdraws c out.network :=
  withdraws_of_keeps hn h.coherent.2
    (h.thinned.trans h.detached fun _ _ _ _ _ _ _ => False.elim) h.taken

end FeederRemoval

namespace Modification

/-- In every network that can come about, equipment that is there is removed in
both modes. Only switches and internal connections that it leads to before any
busbar section go with it. -/
theorem feeder_withdrawn (id : String) (serial : Nat) (ops : List Operation) {x : String}
    {c : Connectable} (hc : ((empty id serial).after ops).connectable? x = some c)
    (hb : c.isBusbarSection = false) (naming : NamingStrategy) (strict : Bool) :
    ((feederRemoval ⟨x⟩).apply ((empty id serial).after ops) naming strict).Succeeds ∧
      ((empty id serial).after ops).Withdraws c
        ((feederRemoval ⟨x⟩).apply ((empty id serial).after ops) naming strict).network := by
  have hn := (coherent_empty False id serial).after ops False.elim
  cases hn.connectable_id x c (keeps_of_connectable? hc)
  obtain ⟨t, hcourse⟩ := FeederRemoval.course_apply hn hc hb naming strict
  exact ⟨hcourse.succeeds, hcourse.withdraws hn⟩

/-- Two loads on one chain of switches to a busbar section. -/
def chainedLoads : List Operation :=
  [.change (.addVoltageLevel { id := "V" }),
    .change (.addBusbarSection { voltageLevel := "V", id := "B1", node := 0 }),
    .change (.addConnectable (.injection
      { owner := 0, id := "LD1", terminal := some (.atNode "V" 2) })),
    .change (.addConnectable (.injection
      { owner := 0, id := "LD2", terminal := some (.atNode "V" 3) })),
    .change (.addSwitch { voltageLevel := "V", id := "K1", node1 := 2, node2 := 3 }),
    .change (.addSwitch { voltageLevel := "V", id := "D1", node1 := 3, node2 := 0 })]

theorem feeder_withdrawn_chainedLoads :
    ∃ c, ((empty "N" 0).after chainedLoads).connectable? "LD1" = some c ∧
      c.isBusbarSection = false ∧
      ((feederRemoval ⟨"LD1"⟩).apply ((empty "N" 0).after chainedLoads) .standard
        true).Succeeds ∧
      ((empty "N" 0).after chainedLoads).Withdraws c
        ((feederRemoval ⟨"LD1"⟩).apply ((empty "N" 0).after chainedLoads) .standard
          true).network := by
  have hload : (((empty "N" 0).after chainedLoads).connectable? "LD1").map (·.isBusbarSection) =
      some false := by
    decide +kernel
  obtain ⟨c, hc, hb⟩ := Option.map_eq_some_iff.mp hload
  exact ⟨c, hc, hb, feeder_withdrawn "N" 0 chainedLoads hc hb .standard true⟩

end Modification

end Switchyard
