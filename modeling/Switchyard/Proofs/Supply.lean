import Switchyard.Proofs.Stripped

namespace Switchyard

open Std Network Relation

/-- A way leads from one node to the other, through switches, open or closed, and
internal connections. -/
abbrev Wiring.Linked (w : Wiring) : Node → Node → Prop :=
  ReflTransGen fun a c => ∃ e ∈ w.edgeList, e.Between a c

namespace Network

variable {n m : Network} {vl : String} {w w' : Wiring} {start x : Node}

/-- The node is linked to a busbar section of its voltage level. -/
def Supplied (n : Network) (vl : String) (node : Node) : Prop :=
  ∃ w rail, n.inside? vl = some (.nodeBreaker w) ∧ n.HasRail vl rail ∧ w.Linked node rail.node

/-- No switch and no internal connection is at the node. -/
def Stripped (n : Network) (vl : String) (node : Node) : Prop :=
  ∃ w, n.inside? vl = some (.nodeBreaker w) ∧ ∀ e ∈ w.edgeList, e.touches node = false

/-- Pruning the bays of the connectable, one terminal after the other, comes to
strip the node of its edges. -/
def StripsAt (n : Network) (c : Connectable) (vl : String) (node : Node) : Prop :=
  ∃ before start after s w, c.terminals.map (·.2) = before ++ .atNode vl start :: after ∧
    Run.pruneBays c.id before ⟨n, []⟩ = .ok () s ∧
    s.network.inside? vl = some (.nodeBreaker w) ∧ Bay.Strips node (s.network.bay w start) start

theorem Coherent.occupant_equipment (h : n.Coherent False)
    (hw : n.inside? vl = some (.nodeBreaker w)) {id : String} {c : Connectable}
    (hc : n.Keeps id c) (hb : c.isBusbarSection = false) {side : Side} {node : Node}
    (hside : (side, .atNode vl node) ∈ c.terminals) : n.occupant w node = .equipment := by
  obtain ⟨u, hu, ha⟩ := (h.holdsAt_iff vl node ⟨id, side⟩).mpr ⟨c, hc, hside⟩
  cases hw.symm.trans hu
  have hout : ¬n.busbarSections.contains id := by
    intro hin
    obtain ⟨b, hbus⟩ := mem_iff_exists_getElem?.mp (ExtTreeMap.contains_iff_mem.mp hin)
    cases h.keeps_unique hc (d := .busbarSection b) hbus
    cases hb
  unfold occupant
  rw [ha]
  simp [hout]

/-- The way to a busbar section ends at the first one that it meets. -/
theorem exists_within_of_linked {r : Node} (h : w.Linked x r) (hx : n.occupant w x ≠ .rail)
    (hr : n.occupant w r = .rail) :
    ∃ a r', n.Within w x a ∧ (∃ e ∈ w.edgeList, e.Between a r') ∧ n.occupant w r' = .rail := by
  have hall : ∀ z, w.Linked x z → n.Within w x z ∧ n.occupant w z ≠ .rail ∨
      ∃ a r', n.Within w x a ∧ (∃ e ∈ w.edgeList, e.Between a r') ∧ n.occupant w r' = .rail := by
    intro z hz
    induction hz with
    | refl => exact Or.inl ⟨.refl, hx⟩
    | @tail y z _ hyz ih =>
      rcases ih with ⟨hy, -⟩ | hfound
      · by_cases hz : n.occupant w z = .rail
        · exact Or.inr ⟨y, z, hy, hyz, hz⟩
        · exact Or.inl ⟨hy.tail ⟨hyz, hz⟩, hz⟩
      · exact Or.inr hfound
  exact (hall r h).resolve_left fun hinside => hinside.2 hr

theorem joined_of_adjoins {a c : Node} (h : (n.bay w start).Adjoins a c) :
    ∃ e ∈ w.edgeList, e.Between a c := by
  obtain ⟨d, hd, hends⟩ := h
  obtain ⟨e, he, hsame, -⟩ := edge_of_mem_links hd
  rcases hends with ⟨rfl, rfl⟩ | ⟨rfl, rfl⟩
  · exact ⟨e, he, hsame⟩
  · exact ⟨e, he, hsame.symm⟩

/-- The edges at a node of a bay are all in it. -/
theorem adjoins_bay {a c : Node} (ha : n.Within w start a) (h : ∃ e ∈ w.edgeList, e.Between a c) :
    (n.bay w start).Adjoins a c := by
  obtain ⟨e, he, hends⟩ := h
  obtain ⟨d, hd, -, hsame⟩ := exists_link_of_within ha he (hends.touches_iff.mpr (Or.inl rfl))
  exact ⟨d, hd, hsame.eq_or hends⟩

theorem rooted_bay (hw : w.Laid) (hstart : n.occupant w start ≠ .rail) :
    (n.bay w start).Rooted start where
  numbered := by
    unfold bay
    rw [List.map_map]
    exact (List.zipIdx_map_snd 0 _).symm ▸ List.nodup_range'
  apart := fun d hd hloop => by
    obtain ⟨e, he, hsame, -⟩ := edge_of_mem_links hd
    obtain ⟨k, hk⟩ := mem_values_iff.mp he
    refine hw.loopless hk ?_
    rcases hsame with ⟨h1, h2⟩ | ⟨h1, h2⟩ <;> simp [h1, h2, hloop]
  reached := fun d hd => by
    obtain ⟨-, -, -, hreached⟩ := edge_of_mem_links hd
    refine ⟨hstart, d.node1, ReflTransGen.mono (fun a c hac => ?_) _ _ (Reaches.trace hreached),
      Edge.touches_iff.mpr (Or.inl rfl)⟩
    obtain ⟨hjoined, ha, hc⟩ := hac
    exact ⟨adjoins_bay ha hjoined, Reaches.entered hc hstart⟩

/-- Equipment in a bay is fed there, if a busbar section is linked to it. -/
theorem feeds_bay {r : Node} (hx : n.Within w start x) (hopen : n.occupant w x ≠ .rail)
    (h : w.Linked x r) (hr : n.occupant w r = .rail) : (n.bay w start).Feeds [] x := by
  obtain ⟨a, r', ha, hlast, hr'⟩ := exists_within_of_linked h hopen hr
  refine ⟨r', hr', (ReflTransGen.mono (fun p q hpq => ?_) _ _ (Reaches.trace ha)).tail ?_⟩
  · exact ⟨adjoins_bay (hx.trans hpq.2.1) hpq.1, Bay.not_severs_nil⟩
  · exact ⟨adjoins_bay (hx.trans ha) hlast, Bay.not_severs_nil⟩

theorem within_of_touches {a : Node} {d : Edge} (hd : d ∈ (n.bay w start).links)
    (ht : d.touches a = true) (hopen : n.occupant w a ≠ .rail) : n.Within w start a := by
  obtain ⟨e, he, hsame, hreached⟩ := edge_of_mem_links hd
  rcases Edge.touches_iff.mp ht with rfl | rfl
  · exact hreached
  · exact hreached.tail ⟨⟨e, he, hsame⟩, hopen⟩

theorem not_severs_of_not_within {a c : Node} (ha : ¬n.Within w start a)
    (hopen : n.occupant w a ≠ .rail) :
    ¬Bay.Severs ((n.bay w start).prune start) a c := by
  rintro ⟨d, hd, hends⟩
  exact ha (within_of_touches (((n.bay w start).prune_subperm start).subset hd)
    (hends.touches_iff.mpr (Or.inl rfl)) hopen)

/-- Nodes stay joined as long as no cut severs them. -/
theorem joined_of_shrinks {cuts : List Cut} (h : w.Shrinks (CutAlong cuts) w') {a c : Node}
    (hjoined : ∃ e ∈ w.edgeList, e.Between a c) (hno : ¬Bay.Severs cuts a c) :
    ∃ e ∈ w'.edgeList, e.Between a c := by
  obtain ⟨e, he, hends⟩ := hjoined
  obtain ⟨k, hk⟩ := mem_values_iff.mp he
  cases hk' : w'.edges[k]? with
  | none =>
    obtain ⟨d, hd, hcut⟩ := h.lost k e hk hk'
    refine absurd ⟨d, hd, ?_⟩ hno
    rcases hends.eq_or hcut with ⟨rfl, rfl⟩ | ⟨rfl, rfl⟩
    · exact d.between_ends
    · exact d.between_ends.symm
  | some f =>
    cases hk.symm.trans (h.edge k f hk')
    exact ⟨e, mem_values_iff.mpr ⟨k, hk'⟩, hends⟩

/-- Pruning a bay leaves equipment that it does not strip on a busbar section. -/
theorem linked_of_prune (hw : w.Laid) (hstart : n.occupant w start ≠ .rail)
    (hshrinks : w.Shrinks (CutAlong ((n.bay w start).prune start)) w')
    (hx : n.occupant w x = .equipment) (hstrip : ¬Bay.Strips x (n.bay w start) start) {r : Node}
    (h : w.Linked x r) (hr : n.occupant w r = .rail) :
    ∃ r', n.occupant w r' = .rail ∧ w'.Linked x r' := by
  have hopen : n.occupant w x ≠ .rail := by simp [hx]
  by_cases hin : n.Within w start x
  · obtain ⟨r', hr', hpath⟩ := Bay.feeds_prune _ start (rooted_bay hw hstart) hx hstrip
      (feeds_bay hin hopen h hr)
    exact ⟨r', hr', ReflTransGen.mono
      (fun p q hpq => joined_of_shrinks hshrinks (joined_of_adjoins hpq.1) hpq.2) _ _ hpath⟩
  · obtain ⟨a, r', ha, hlast, hr'⟩ := exists_within_of_linked h hopen hr
    -- A node on the way would lead back into the bay.
    have hout : ∀ z, n.Within w x z → ¬n.Within w start z := fun z hz hback =>
      hin (hback.trans (Reaches.symm hz hopen))
    have hleft : ∀ p q, n.Within w x p → (∃ e ∈ w.edgeList, e.Between p q) →
        ∃ e ∈ w'.edgeList, e.Between p q := fun p q hp hjoined =>
      joined_of_shrinks hshrinks hjoined
        (not_severs_of_not_within (hout p hp) (Reaches.entered hp hopen))
    exact ⟨r', hr', (ReflTransGen.mono (fun p q hpq => hleft p q hpq.2.1 hpq.1) _ _
      (Reaches.trace ha)).tail (hleft a r' ha hlast)⟩

theorem edges_of_strips (hw : w.Laid) (hstart : n.occupant w start ≠ .rail)
    (hx : n.occupant w x ≠ .rail) (h : Bay.Strips x (n.bay w start) start)
    {P : Edge → Prop} (hshrinks : w.Shrinks P w')
    (hlacks : ∀ d ∈ removedEdges ((n.bay w start).prune start), w'.Lacks d) :
    ∀ e ∈ w'.edgeList, e.touches x = false := by
  obtain ⟨first, hfirst⟩ := List.exists_mem_of_ne_nil _ h.edgesAt_ne_nil
  obtain ⟨hmem, ht⟩ := Bay.mem_edgesAt.mp hfirst
  have hwithin := within_of_touches (Bay.mem_links.mpr ⟨first, hmem, rfl⟩) ht hx
  intro e he
  rw [Bool.eq_false_iff]
  intro ht
  obtain ⟨d, hd, hlink, hsame⟩ :=
    exists_link_of_within hwithin (hshrinks.edgeList_subset he) ht
  obtain ⟨entry, hentry, rfl⟩ := Bay.mem_links.mp hd
  have hat : entry ∈ (n.bay w start).edgesAt x := Bay.mem_edgesAt.mpr
    ⟨hentry, (Edge.between_ends _).touches_iff.mpr (hsame.touches_iff.mp ht)⟩
  exact hlacks _ (h.removes (rooted_bay hw hstart) hx entry hat) e he hlink hsame

theorem Stripped.of_thins {X : Set String} {lost : String → Wiring → Edge → Prop}
    (h : Thins X lost n m) (hx : n.Stripped vl x) : m.Stripped vl x := by
  obtain ⟨w, hw, hnone⟩ := hx
  obtain ⟨w', hw', hshrinks⟩ := h.wiring vl w hw
  exact ⟨w', hw', fun e he => hnone e (hshrinks.edgeList_subset he)⟩

theorem Stripped.not_supplied (h : n.Stripped vl x)
    (hno : ∀ rail, n.HasRail vl rail → rail.node ≠ x) : ¬n.Supplied vl x := by
  rintro ⟨w, rail, hw, hrail, hlinked⟩
  obtain ⟨u, hu, hnone⟩ := h
  cases hw.symm.trans hu
  rcases hlinked.cases_head with hself | ⟨z, ⟨e, he, hends⟩, -⟩
  · exact hno rail hrail hself.symm
  · have ht := hends.touches_iff.mpr (Or.inl rfl)
    rw [hnone e he] at ht
    cases ht

theorem HasRail.of_keeps {rail : Rail} (hr : n.HasRail vl rail)
    (h : ∀ id b, n.Keeps id (.busbarSection b) → m.Keeps id (.busbarSection b)) :
    m.HasRail vl rail := by
  obtain ⟨b, hb, hlevel, hnode⟩ := hr
  exact ⟨b, h _ b hb, hlevel, hnode⟩

theorem Supplied.of_thins {X : Set String} (h : Thins X (fun _ _ _ => False) n m)
    (hkeeps : ∀ id b, n.Keeps id (.busbarSection b) → m.Keeps id (.busbarSection b))
    (hx : n.Supplied vl x) : m.Supplied vl x := by
  obtain ⟨w, rail, hw, hr, hlinked⟩ := hx
  obtain ⟨w', hw', hshrinks⟩ := h.wiring vl w hw
  refine ⟨w', rail, hw', hr.of_keeps hkeeps, ReflTransGen.mono (fun a c hac => ?_) _ _ hlinked⟩
  have hnone : w.Shrinks (CutAlong []) w' := hshrinks.mono fun _ => False.elim
  exact joined_of_shrinks hnone hac Bay.not_severs_nil

end Network

namespace Run

variable {n : Network} {c d : Connectable} {s t : Session} {vl : String} {node : Node}

theorem pruneBays_append {id : String} {before after : List Terminal} {u : Session} :
    pruneBays id (before ++ after) s = .ok () u ↔
      ∃ t, pruneBays id before s = .ok () t ∧ pruneBays id after t = .ok () u := by
  induction before generalizing s with
  | nil =>
    refine ⟨fun h => ⟨s, rfl, h⟩, ?_⟩
    rintro ⟨t, ht, h⟩
    cases ht
    exact h
  | cons x rest ih =>
    obtain ⟨level, connection⟩ := x
    cases connection with
    | bus bus => exact ih
    | node node =>
      simp only [List.cons_append, pruneBays, Terminal.node?, bind_eq_ok, ih]
      constructor
      · rintro ⟨a, v, hv, t, ht, h⟩
        exact ⟨t, ⟨a, v, hv, ht⟩, h⟩
      · rintro ⟨t, ⟨a, v, hv, ht⟩, h⟩
        exact ⟨a, v, hv, t, ht, h⟩

theorem supplied_pruneBay (hs : s.network.Coherent False) {id : String} {level : String}
    {start : Node}
    (hstart : ∀ w, s.network.inside? level = some (.nodeBreaker w) →
      s.network.occupant w start ≠ .rail)
    (hnode : ∀ w, s.network.inside? vl = some (.nodeBreaker w) →
      s.network.occupant w node = .equipment)
    (hok : pruneBay id level start s = .ok () t) (h : s.network.Supplied vl node) :
    t.network.Supplied vl node ∨ level = vl ∧
      ∃ w, s.network.inside? vl = some (.nodeBreaker w) ∧
        Bay.Strips node (s.network.bay w start) start := by
  have hprunes := prunes_of_pruneBay hs hok
  have hsame := hprunes.sameOff (Set.mem_singleton level)
  obtain ⟨u, u', hu, hu', hshrinks, -⟩ := hprunes.shrinks hs
  obtain ⟨w, rail, hw, hr, hlinked⟩ := h
  have hkeeps : ∀ x b, s.network.Keeps x (.busbarSection b) →
      t.network.Keeps x (.busbarSection b) :=
    fun x b => (hsame.keeps_iff x _).mpr
  by_cases hlevel : level = vl
  · subst hlevel
    cases hu.symm.trans hw
    by_cases hstrip : Bay.Strips node (s.network.bay u start) start
    · exact Or.inr ⟨rfl, u, hu, hstrip⟩
    · obtain ⟨r', hr', hlinked'⟩ := linked_of_prune (hs.sound level u hu).toLaid (hstart u hu)
        hshrinks (hnode u hu) hstrip hlinked (hs.occupant_rail hr hu)
      obtain ⟨rail', hrail', rfl⟩ := hs.hasRail_of_occupant hu hr'
      exact Or.inl ⟨u', rail', hu', hrail'.of_keeps hkeeps, hlinked'⟩
  · refine Or.inl ⟨w, rail, ?_, hr.of_keeps hkeeps, hlinked⟩
    rwa [inside?, hsame.level vl (Ne.symm hlevel)]

/-- Pruning the bays of equipment leaves other equipment supplied, or strips it. -/
theorem supplied_pruneBays (hc : n.Keeps c.id c)
    (hcb : c.isBusbarSection = false) {y : String} (hd : n.Keeps y d)
    (hdb : d.isBusbarSection = false) {side : Side} (hside : (side, .atNode vl node) ∈ d.terminals)
    (before ts : List Terminal) (hts : c.terminals.map (·.2) = before ++ ts)
    (hbefore : pruneBays c.id before ⟨n, []⟩ = .ok () s) (hs : s.network.Coherent False)
    (hkeeps : ∀ id x, s.network.Keeps id x ↔ n.Keeps id x) (h : s.network.Supplied vl node)
    (hok : pruneBays c.id ts s = .ok () t) :
    t.network.Supplied vl node ∨ n.StripsAt c vl node := by
  induction ts generalizing before s with
  | nil =>
    cases hok
    exact Or.inl h
  | cons u rest ih =>
    have hsplit : c.terminals.map (·.2) = (before ++ [u]) ++ rest := by
      rw [List.append_assoc, List.singleton_append, hts]
    have hin : u ∈ c.terminals.map (·.2) := by simp [hts]
    obtain ⟨⟨side', x⟩, hside', hx⟩ := List.mem_map.mp hin
    obtain ⟨level, connection⟩ := u
    cases connection with
    | bus bus => exact ih _ hsplit (pruneBays_append.mpr ⟨s, hbefore, rfl⟩) hs hkeeps h hok
    | node start =>
      cases hx
      simp only [pruneBays, Terminal.node?, bind_eq_ok] at hok
      obtain ⟨_, v, hprune, hrun⟩ := hok
      have hprunes := prunes_of_pruneBay hs hprune
      have hsame := hprunes.sameOff (Set.mem_singleton level)
      have hstart : ∀ w, s.network.inside? level = some (.nodeBreaker w) →
          s.network.occupant w start ≠ .rail := fun w hw => by
        simp [hs.occupant_equipment hw ((hkeeps _ _).mpr hc) hcb hside']
      rcases supplied_pruneBay hs hstart
        (fun w hw => hs.occupant_equipment hw ((hkeeps _ _).mpr hd) hdb hside) hprune h with
        hnext | ⟨rfl, w, hw, hstrip⟩
      · have hdone : pruneBays c.id [⟨level, .node start⟩] s = .ok () v := by
          simp only [pruneBays, Terminal.node?, bind_eq_ok]
          exact ⟨_, v, hprune, rfl⟩
        exact ih _ hsplit (pruneBays_append.mpr ⟨s, hbefore, hdone⟩) (hprunes.coherent hs)
          (fun x e => (hsame.keeps_iff x e).trans (hkeeps x e)) hnext hrun
      · exact Or.inr ⟨before, start, rest, s, w, hts, hbefore, hw, hstrip⟩

theorem stripped_pruneBays (hn : n.Coherent False) (hc : n.Keeps c.id c)
    (hcb : c.isBusbarSection = false) {y : String} (hd : n.Keeps y d)
    (hdb : d.isBusbarSection = false) {side : Side} (hside : (side, .atNode vl node) ∈ d.terminals)
    (h : n.StripsAt c vl node) (hok : pruneBays c.id (c.terminals.map (·.2)) ⟨n, []⟩ = .ok () t) :
    t.network.Stripped vl node := by
  obtain ⟨before, start, after, s, w, hsplit, hbefore, hw, hstrips⟩ := h
  have hts : ∀ u ∈ before ++ .atNode vl start :: after, ∃ side, (side, u) ∈ c.terminals := by
    intro u hu
    rw [← hsplit] at hu
    obtain ⟨⟨side, x⟩, hx, rfl⟩ := List.mem_map.mp hu
    exact ⟨side, hx⟩
  obtain ⟨hs, hkeeps, -⟩ := thins_pruneBays hn hn (fun _ _ => Iff.rfl) (.refl n)
    (fun u hu => hts u (List.mem_append_left _ hu)) hbefore
  rw [hsplit, pruneBays_append] at hok
  obtain ⟨s', hs', hok⟩ := hok
  cases hbefore.symm.trans hs'
  obtain ⟨_, v, hprune, hafter⟩ := bind_eq_ok.mp hok
  have hprunes := prunes_of_pruneBay hs hprune
  have hv := hprunes.coherent hs
  obtain ⟨u, u', hu, hu', hshrinks, hlacks⟩ := hprunes.shrinks hs
  cases hw.symm.trans hu
  obtain ⟨side', hside'⟩ := hts _ (List.mem_append_right _ List.mem_cons_self)
  have hstart : s.network.occupant w start ≠ .rail := by
    simp [hs.occupant_equipment hw ((hkeeps _ _).mpr hc) hcb hside']
  have hnode : s.network.occupant w node ≠ .rail := by
    simp [hs.occupant_equipment hw ((hkeeps _ _).mpr hd) hdb hside]
  have hstripped : v.network.Stripped vl node := ⟨u', hu',
    edges_of_strips (hs.sound vl w hw).toLaid hstart hnode hstrips hshrinks hlacks⟩
  exact hstripped.of_thins (thins_pruneBays hv hv (fun _ _ => Iff.rfl) (.refl v.network)
    (fun u hu => hts u (List.mem_append_right _ (List.mem_cons_of_mem _ hu))) hafter).2.2

end Run

namespace Modification

/-- In every network that can come about, the removal of equipment leaves other
equipment linked to a busbar section, exactly if the pruning does not strip its node. -/
theorem supplied_iff_not_stripped (id : String) (serial : Nat) (ops : List Operation)
    {x y : String} {c d : Connectable}
    (hc : ((empty id serial).after ops).connectable? x = some c)
    (hcb : c.isBusbarSection = false) (hd : ((empty id serial).after ops).connectable? y = some d)
    (hdb : d.isBusbarSection = false) {side : Side} {vl : String} {node : Node}
    (hside : (side, .atNode vl node) ∈ d.terminals)
    (h : ((empty id serial).after ops).Supplied vl node) (naming : NamingStrategy)
    (strict : Bool) :
    ((feederRemoval ⟨x⟩).apply ((empty id serial).after ops) naming strict).network.Supplied
        vl node ↔ ¬((empty id serial).after ops).StripsAt c vl node := by
  have hn := (coherent_empty False id serial).after ops False.elim
  have hkeeps := keeps_of_connectable? hd
  cases hn.connectable_id x c (keeps_of_connectable? hc)
  obtain ⟨t, hcourse⟩ := FeederRemoval.course_apply hn hc hcb naming strict
  constructor
  · intro hsupplied hstrips
    have hstripped := Run.stripped_pruneBays hn (keeps_of_connectable? hc) hcb hkeeps hdb hside
      hstrips hcourse.pruned
    refine (hstripped.of_thins hcourse.detached).not_supplied (fun rail hrail hnode => ?_)
      hsupplied
    obtain ⟨w, -, hw, -⟩ := h
    have hold := hrail.of_keeps fun k b hb => ((hcourse.taken k _).mp hb).1
    have hoccupant := hn.occupant_rail hold hw
    rw [hnode, hn.occupant_equipment hw hkeeps hdb hside] at hoccupant
    cases hoccupant
  · intro hno
    have hpruned := (Run.supplied_pruneBays (keeps_of_connectable? hc) hcb hkeeps hdb hside []
      _ (List.nil_append _).symm rfl hn (fun _ _ => Iff.rfl) h hcourse.pruned).resolve_right hno
    refine hpruned.of_thins hcourse.detached fun k b hb => ?_
    have hb := (hcourse.kept k _).mp hb
    refine (hcourse.taken k _).mpr ⟨hb, fun hk => ?_⟩
    subst hk
    cases hn.keeps_unique hb (keeps_of_connectable? hc)
    cases hcb

theorem loads_chainedLoads :
    ∃ c d, ((empty "N" 0).after chainedLoads).connectable? "LD1" = some c ∧
      c.isBusbarSection = false ∧
      ((empty "N" 0).after chainedLoads).connectable? "LD2" = some d ∧
      d.isBusbarSection = false ∧ (.one, .atNode "V" 3) ∈ d.terminals := by
  have hload : (((empty "N" 0).after chainedLoads).connectable? "LD1").map (·.isBusbarSection) =
      some false := by
    decide +kernel
  have hother : (((empty "N" 0).after chainedLoads).connectable? "LD2").map
      (fun d => (d.isBusbarSection, d.terminals)) = some (false, [(.one, .atNode "V" 3)]) := by
    decide +kernel
  obtain ⟨c, hc, hcb⟩ := Option.map_eq_some_iff.mp hload
  obtain ⟨d, hd, hat⟩ := Option.map_eq_some_iff.mp hother
  obtain ⟨hdb, hterminals⟩ := Prod.mk.inj hat
  exact ⟨c, d, hc, hcb, hd, hdb, hterminals ▸ List.mem_singleton_self _⟩

theorem supplied_chainedLoads : ((empty "N" 0).after chainedLoads).Supplied "V" 3 := by
  have hedges : (((empty "N" 0).after chainedLoads).wiring "V").toOption.map (·.edgeList) =
      some [⟨2, 3, .switch "K1"⟩, ⟨3, 0, .switch "D1"⟩] := by
    decide +kernel
  have hrail : ((empty "N" 0).after chainedLoads).busbarSections["B1"]?.map
      (fun b => (b.voltageLevel, b.node)) = some ("V", 0) := by
    decide +kernel
  obtain ⟨b, hb, hat⟩ := Option.map_eq_some_iff.mp hrail
  obtain ⟨w, hw, hedges⟩ := exists_wiring_of_map hedges
  refine ⟨w, ⟨"B1", 0⟩, hw, ⟨b, hb, by simp_all⟩, .single ?_⟩
  exact ⟨⟨3, 0, .switch "D1"⟩, by simp [hedges], Or.inl ⟨rfl, rfl⟩⟩

theorem supplied_iff_not_stripped_chainedLoads :
    ∃ c d, ((empty "N" 0).after chainedLoads).connectable? "LD1" = some c ∧
      c.isBusbarSection = false ∧
      ((empty "N" 0).after chainedLoads).connectable? "LD2" = some d ∧
      d.isBusbarSection = false ∧ (.one, .atNode "V" 3) ∈ d.terminals ∧
      ((empty "N" 0).after chainedLoads).Supplied "V" 3 ∧
      (((feederRemoval ⟨"LD1"⟩).apply ((empty "N" 0).after chainedLoads) .standard
          true).network.Supplied "V" 3 ↔
        ¬((empty "N" 0).after chainedLoads).StripsAt c "V" 3) := by
  obtain ⟨c, d, hc, hcb, hd, hdb, hside⟩ := loads_chainedLoads
  exact ⟨c, d, hc, hcb, hd, hdb, hside, supplied_chainedLoads,
    supplied_iff_not_stripped "N" 0 chainedLoads hc hcb hd hdb hside supplied_chainedLoads .standard
      true⟩

/-- The removal of the first load cuts the second one off. -/
theorem unsupplied_chainedLoads :
    ∃ c d, ((empty "N" 0).after chainedLoads).connectable? "LD1" = some c ∧
      c.isBusbarSection = false ∧
      ((empty "N" 0).after chainedLoads).connectable? "LD2" = some d ∧
      d.isBusbarSection = false ∧ (.one, .atNode "V" 3) ∈ d.terminals ∧
      ((empty "N" 0).after chainedLoads).Supplied "V" 3 ∧
      ¬((feederRemoval ⟨"LD1"⟩).apply ((empty "N" 0).after chainedLoads) .standard
          true).network.Supplied "V" 3 := by
  have hedges : (((feederRemoval ⟨"LD1"⟩).apply ((empty "N" 0).after chainedLoads) .standard
      true).network.wiring "V").toOption.map (·.edgeList) = some [] := by
    decide +kernel
  have hrails : ∀ b ∈ ((feederRemoval ⟨"LD1"⟩).apply ((empty "N" 0).after chainedLoads) .standard
      true).network.busbarSections.values, b.node ≠ 3 := by
    decide +kernel
  obtain ⟨c, d, hc, hcb, hd, hdb, hside⟩ := loads_chainedLoads
  refine ⟨c, d, hc, hcb, hd, hdb, hside, supplied_chainedLoads, ?_⟩
  rintro ⟨w, rail, hw, ⟨b, hb, -, hnode⟩, hlinked⟩
  rw [wiring_eq_ok_iff.mpr hw] at hedges
  have hedges : w.edgeList = [] := Option.some.inj hedges
  rcases hlinked.cases_head with hrail | ⟨z, ⟨e, he, -⟩, -⟩
  · exact hrails b (mem_values_iff.mpr ⟨_, hb⟩) (hnode.trans hrail.symm)
  · rw [hedges] at he
    cases he

end Modification

end Switchyard
