import Switchyard.Proofs.Neighbours
import Switchyard.Proofs.Nodes
import Switchyard.Proofs.RailSearches

namespace Switchyard

open Std Relation Network

/-- Hops from the first node to the second one, the last hop first, each along an edge of the
wiring. No node between the two holds a terminal. -/
inductive Wiring.Way (w : Wiring) (start : Node) : Node → List Hop → Prop
  | nil : Way w start start []
  | snoc {a b : Node} {e : Edge} {hops : List Hop} (hway : Way w start a hops)
    (hinner : hops = [] ∨ w.Plain a) (he : e ∈ w.edgeList) (hends : e.Between a b) :
    Way w start b (⟨a, e, b⟩ :: hops)

theorem Wiring.Way.cases_last {w : Wiring} {start b : Node} {hops : List Hop}
    (h : w.Way start b hops) : b = start ∧ hops = [] ∨
      ∃ a e rest, hops = ⟨a, e, b⟩ :: rest ∧ w.Way start a rest ∧ (rest = [] ∨ w.Plain a) ∧
        e ∈ w.edgeList ∧ e.Between a b := by
  cases h with
  | nil => exact Or.inl ⟨rfl, rfl⟩
  | snoc hway hinner he hends => exact Or.inr ⟨_, _, _, rfl, hway, hinner, he, hends⟩

/-- The nodes that hops come by, from the last one back. -/
def waypoints (node : Node) (hops : List Hop) : List Node :=
  node :: hops.map (·.source)

namespace Trace

variable {parents others : ExtTreeMap Node Hop} {node : Node} {hops : List Hop}

/-- Going back from a node by the hop that each node was come to by ends, after these hops. -/
inductive Retraces (parents : ExtTreeMap Node Hop) : Node → List Hop → Prop
  | done {node : Node} (hnone : parents[node]? = none) : Retraces parents node []
  | back {node : Node} {hop : Hop} {hops : List Hop} (hsome : parents[node]? = some hop)
    (hrest : Retraces parents hop.source hops) : Retraces parents node (hop :: hops)

/-- Only the nodes on the way back matter. -/
theorem Retraces.congr (h : Retraces parents node hops)
    (hsame : ∀ a ∈ waypoints node hops, others[a]? = parents[a]?) :
    Retraces others node hops := by
  induction h with
  | done hnone => exact .done ((hsame _ List.mem_cons_self).trans hnone)
  | back hsome _ ih =>
    exact .back ((hsame _ List.mem_cons_self).trans hsome)
      (ih fun a ha => hsame a (List.mem_cons_of_mem _ ha))

/-- The hop to a node that is not on the way back does not matter. -/
theorem Retraces.erase (h : Retraces parents node hops) {a : Node} (ha : a ∉ waypoints node hops) :
    Retraces (parents.erase a) node hops := by
  refine h.congr fun b hb => ?_
  rw [ExtTreeMap.getElem?_erase, if_neg]
  rintro he
  exact ha (LawfulEqCmp.eq_of_compare he ▸ hb)

theorem Retraces.insertIfNew (h : Retraces parents node hops) {a : Node} {hop : Hop}
    (ha : a ∉ waypoints node hops) : Retraces (parents.insertIfNew a hop) node hops := by
  refine h.congr fun b hb => ?_
  rw [ExtTreeMap.getElem?_insertIfNew, if_neg]
  rintro ⟨he, -⟩
  exact ha (LawfulEqCmp.eq_of_compare he ▸ hb)

/-- On a way back that comes to no node twice, nothing is missed by taking away the nodes that
are behind. -/
theorem switchesTo_eq (h : Retraces parents node hops) (hnodup : (waypoints node hops).Nodup) :
    switchesTo parents node = switchIds (hops.map (·.edge)) := by
  induction hops generalizing parents node with
  | nil =>
    cases h with
    | done hnone =>
      rw [switchesTo, hnone]
      rfl
  | cons hop hops ih =>
    cases h with
    | back hsome hrest =>
      obtain ⟨hnot, hnodup⟩ := List.nodup_cons.mp hnodup
      have hih := ih (hrest.erase hnot) hnodup
      rw [switchesTo, hsome]
      cases hlink : hop.edge.link <;>
        simp [hlink, hih, switchIds, Edge.switch?]

end Trace

namespace Network

variable {n : Network} {w : Wiring} {start : Rail} {position : BusbarPosition} {node : Node}
  {e : Edge} {edges : List Edge} {entered trail : List Node} {t next : Trace} {verdict : Verdict}
  {hops : List Hop}

/-- What the search for a neighbour does at an edge. -/
def seek (n : Network) (w : Wiring) (start : Rail) (position : BusbarPosition) (t : Trace)
    (h : Hop) : Verdict × Trace :=
  match w.terminals[h.target]? with
  | none => (.onward, { t with parents := t.parents.insertIfNew h.target h })
  | some a =>
    if a.connectable = start.id then (.leave, t)
    else if n.busbarSections[a.connectable]?.bind (·.position) = some position then
      (.stop, { t with found := some h })
    else (.leave, t)

/-- How the search for a neighbour ends. -/
def search (n : Network) (w : Wiring) (start : Rail) (position : BusbarPosition) : Bool × Trace :=
  walk (n.seek w start position) w.edgeList [start.node] [start.node] {}

theorem neighbour?_eq (n : Network) (w : Wiring) (start : Rail) (position : BusbarPosition) :
    n.neighbour? w start position = (n.search w start position).2.found.map fun h =>
      ⟨h.target, h.edge.switch?.toList ++
        Trace.switchesTo (n.search w start position).2.parents h.source⟩ := by
  unfold neighbour? search Wiring.traverse
  refine Option.map_congr fun h _ => ?_
  cases hlink : h.edge.link <;> simp [hlink, Edge.switch?] <;> rfl

/-- Another section than the one at the start, at the position, holds the node. -/
def Sought (n : Network) (w : Wiring) (start : Rail) (position : BusbarPosition) (node : Node) :
    Prop :=
  ∃ a, w.terminals[node]? = some a ∧ a.connectable ≠ start.id ∧
    n.busbarSections[a.connectable]?.bind (·.position) = some position

theorem seek_cases (n : Network) (w : Wiring) (start : Rail) (position : BusbarPosition)
    (t : Trace) (h : Hop) :
    w.Plain h.target ∧ n.seek w start position t h =
        (.onward, { t with parents := t.parents.insertIfNew h.target h }) ∨
      n.Sought w start position h.target ∧
        n.seek w start position t h = (.stop, { t with found := some h }) ∨
      ¬w.Plain h.target ∧ ¬n.Sought w start position h.target ∧
        n.seek w start position t h = (.leave, t) := by
  unfold seek Sought
  cases ha : w.terminals[h.target]? with
  | none => exact Or.inl ⟨Wiring.plain_iff.mpr ha, rfl⟩
  | some a =>
    have hplain := Wiring.not_plain_of_terminal ha
    by_cases hstart : a.connectable = start.id
    · simp [hstart, hplain]
    · by_cases hposition : n.busbarSections[a.connectable]?.bind (·.position) = some position
      · simp [hstart, hposition]
      · simp [hstart, hposition, hplain]

theorem seek_eq_onward {h : Hop} (hvisit : n.seek w start position t h = (.onward, next)) :
    w.Plain h.target ∧ next = { t with parents := t.parents.insertIfNew h.target h } := by
  rcases n.seek_cases w start position t h with ⟨hplain, hv⟩ | ⟨-, hv⟩ | ⟨-, -, hv⟩ <;>
    cases hvisit.symm.trans hv
  exact ⟨hplain, rfl⟩

/-- The nodes entered so far are the start and those that a hop came to. The way back from each
of them is a way from the start that comes to no node twice. -/
structure Mapped (w : Wiring) (start : Node) (edges : List Edge) (entered trail : List Node)
    (t : Trace) : Prop where
  edges_sub : edges ⊆ w.edgeList
  trail_sub : trail ⊆ entered
  found : t.found = none
  known : ∀ a, a ∈ entered ↔ a = start ∨ a ∈ t.parents
  plain : ∀ a ∈ entered, a = start ∨ w.Plain a
  way : ∀ a ∈ entered, ∃ hops, w.Way start a hops ∧ (hops = [] ∨ w.Plain a) ∧
    Trace.Retraces t.parents a hops ∧ (waypoints a hops).Nodup ∧ waypoints a hops ⊆ entered

namespace Mapped

theorem initial (w : Wiring) (start : Node) : Mapped w start w.edgeList [start] [start] {} where
  edges_sub := List.Subset.refl _
  trail_sub := List.Subset.refl _
  found := rfl
  known := by simp
  plain := fun _ ha => Or.inl (List.mem_singleton.mp ha)
  way := fun a ha => by
    obtain rfl := List.mem_singleton.mp ha
    exact ⟨[], .nil, Or.inl rfl, .done (by simp), by simp [waypoints], by simp [waypoints]⟩

theorem back (h : Mapped w start.node edges entered (node :: trail) t) :
    Mapped w start.node edges entered trail t :=
  { h with trail_sub := fun _ ha => h.trail_sub (List.mem_cons_of_mem node ha) }

theorem pass (h : Mapped w start.node edges entered (node :: trail) t)
    (hstart : ¬w.Plain start.node)
    (hvisit : n.seek w start position t ⟨node, e, e.farEnd node⟩ = (verdict, next))
    (hgo : verdict ≠ .stop) (hin : verdict = .onward → e.farEnd node ∈ entered) :
    Mapped w start.node (edges.erase e) entered (node :: trail) next := by
  have hsame : next = t := by
    rcases n.seek_cases w start position t ⟨node, e, e.farEnd node⟩ with ⟨hplain, hv⟩ |
      ⟨-, hv⟩ | ⟨-, -, hv⟩ <;> obtain ⟨rfl, rfl⟩ := Prod.mk.inj (hvisit.symm.trans hv)
    · -- The far end was come to before, so the first hop to it stays.
      have hmem := ((h.known _).mp (hin rfl)).resolve_left fun he => hstart (he ▸ hplain)
      have hparents :
            t.parents.insertIfNew (e.farEnd node) ⟨node, e, e.farEnd node⟩ = t.parents := by
        apply ExtTreeMap.ext_getElem?
        intro a
        rw [ExtTreeMap.getElem?_insertIfNew, if_neg]
        rintro ⟨he, hno⟩
        exact hno (LawfulEqCmp.eq_of_compare he ▸ hmem)
      rw [hparents]
    · exact absurd rfl hgo
    · rfl
  subst hsame
  exact { h with edges_sub := fun f hf => h.edges_sub (List.mem_of_mem_erase hf) }

/-- An edge is offered whose far end is entered: the way to it goes on from the node that it is
offered from. -/
theorem enter (h : Mapped w start.node edges entered (node :: trail) t) (he : e ∈ edges)
    (ht : e.touches node = true)
    (hvisit : n.seek w start position t ⟨node, e, e.farEnd node⟩ = (.onward, next))
    (hnew : e.farEnd node ∉ entered) :
    Mapped w start.node (edges.erase e) (e.farEnd node :: entered)
      (e.farEnd node :: node :: trail) next := by
  obtain ⟨hplain, rfl⟩ := seek_eq_onward hvisit
  have hfresh : e.farEnd node ∉ t.parents := fun hmem => hnew ((h.known _).mpr (Or.inr hmem))
  have hfirst : (t.parents.insertIfNew (e.farEnd node) ⟨node, e, e.farEnd node⟩)[e.farEnd node]? =
      some ⟨node, e, e.farEnd node⟩ := by
    rw [ExtTreeMap.getElem?_insertIfNew, if_pos ⟨ReflCmp.compare_self, hfresh⟩]
  refine ⟨fun f hf => h.edges_sub (List.mem_of_mem_erase hf),
    List.cons_subset_cons _ h.trail_sub, h.found, fun a => ?_,
    List.forall_mem_cons.mpr ⟨Or.inr hplain, h.plain⟩,
    List.forall_mem_cons.mpr ⟨?_, fun a ha => ?_⟩⟩
  · rw [List.mem_cons, h.known, ExtTreeMap.mem_insertIfNew, LawfulEqCmp.compare_eq_iff_eq,
      eq_comm (a := a), or_left_comm]
  · obtain ⟨hops, hway, hinner, hretraces, hnodup, hsub⟩ :=
      h.way node (h.trail_sub List.mem_cons_self)
    have hnot : e.farEnd node ∉ waypoints node hops := fun hin => hnew (hsub hin)
    exact ⟨_, hway.snoc hinner (h.edges_sub he) (Edge.between_farEnd ht), Or.inr hplain,
      .back hfirst (hretraces.insertIfNew hnot), List.nodup_cons.mpr ⟨hnot, hnodup⟩,
      List.cons_subset_cons _ hsub⟩
  · obtain ⟨hops, hway, hinner, hretraces, hnodup, hsub⟩ := h.way a ha
    exact ⟨hops, hway, hinner, hretraces.insertIfNew fun hin => hnew (hsub hin), hnodup,
      List.subset_cons_of_subset _ hsub⟩

/-- A section that is sought is found at the end of a way that comes to no node twice. -/
theorem stop (h : Mapped w start.node edges entered (node :: trail) t) (he : e ∈ edges)
    (ht : e.touches node = true) (hfar : e.farEnd node ∉ entered) :
    ∃ hops, w.Way start.node (e.farEnd node) (⟨node, e, e.farEnd node⟩ :: hops) ∧
      Trace.Retraces t.parents node hops ∧
      (waypoints (e.farEnd node) (⟨node, e, e.farEnd node⟩ :: hops)).Nodup := by
  obtain ⟨hops, hway, hinner, hretraces, hnodup, hsub⟩ :=
    h.way node (h.trail_sub List.mem_cons_self)
  exact ⟨hops, hway.snoc hinner (h.edges_sub he) (Edge.between_farEnd ht), hretraces,
    List.nodup_cons.mpr ⟨fun hin => hfar (hsub hin), hnodup⟩⟩

end Mapped

/-- The search came to a section that is sought, on a way that the hops to its nodes retrace. -/
def Arrives (n : Network) (w : Wiring) (start : Rail) (position : BusbarPosition) (t : Trace)
    (last : Hop) (hops : List Hop) : Prop :=
  n.Sought w start position last.target ∧ w.Way start.node last.target (last :: hops) ∧
    Trace.Retraces t.parents last.source hops ∧ (waypoints last.target (last :: hops)).Nodup

variable (hstart : w.terminals[start.node]? = some ⟨start.id, .one⟩)
include hstart

theorem Sought.ne_start (h : n.Sought w start position node) : node ≠ start.node := by
  rintro rfl
  obtain ⟨a, ha, hne, -⟩ := h
  cases hstart.symm.trans ha
  exact hne rfl

omit hstart in
theorem Sought.not_plain (h : n.Sought w start position node) : ¬w.Plain node := by
  obtain ⟨a, ha, -⟩ := h
  exact Wiring.not_plain_of_terminal ha

theorem search_ends (n : Network) (position : BusbarPosition) :
    ((n.search w start position).1 = true ∧ (n.search w start position).2.found = none) ∨
    (n.search w start position).1 = false ∧ ∃ last hops,
      (n.search w start position).2.found = some last ∧
        n.Arrives w start position (n.search w start position).2 last hops := by
  refine walk_ends (p := Mapped w start.node)
    (q := fun r => (r.1 = true ∧ r.2.found = none) ∨ r.1 = false ∧ ∃ last hops,
      r.2.found = some last ∧ n.Arrives w start position r.2 last hops)
    ?_ ?_ ?_ ?_ ?_ w.edgeList [start.node] [start.node] {} (.initial w start.node)
  · exact fun h => Or.inl ⟨rfl, h.found⟩
  · exact fun h _ => h.back
  · intro edges entered node rest t e next h he ht hvisit
    rcases n.seek_cases w start position t ⟨node, e, e.farEnd node⟩ with ⟨-, hv⟩ |
      ⟨hsought, hv⟩ | ⟨-, -, hv⟩ <;> rw [hv] at hvisit
    · cases hvisit
    · obtain ⟨-, rfl⟩ := Prod.mk.inj hvisit
      have hfar : e.farEnd node ∉ entered := fun hin =>
        (h.plain _ hin).elim (hsought.ne_start hstart) hsought.not_plain
      obtain ⟨hops, hway, hretraces, hnodup⟩ := h.stop he ht hfar
      exact Or.inr ⟨rfl, _, hops, rfl, hsought, hway, hretraces, hnodup⟩
    · cases hvisit
  · intro edges entered node rest t e verdict next h he ht hvisit hgo hin
    exact h.pass (Wiring.not_plain_of_terminal hstart) hvisit hgo hin
  · intro edges entered node rest t e next h he ht hvisit hnew
    exact h.enter he ht hvisit hnew

omit hstart in
theorem seek_verdict (t : Trace) (h : Hop) :
    (n.seek w start position t h).1 = (n.seek w start position {} h).1 := by
  unfold seek
  split
  · rfl
  · split
    · rfl
    · split <;> rfl

omit hstart in
/-- The search goes along a way as long as the nodes hold no terminal. -/
theorem goes_of_way (hway : w.Way start.node node hops) (hinner : hops = [] ∨ w.Plain node) :
    ReflTransGen (Goes w.edgeList fun h => (n.seek w start position {} h).1) start.node node := by
  induction hway with
  | nil => exact .refl
  | @snoc a b e hops _ hbefore he hends ih =>
    have hplain := hinner.resolve_left (List.cons_ne_nil _ _)
    refine (ih hbefore).tail ⟨e, he, hends, ?_⟩
    rcases n.seek_cases w start position {} ⟨a, e, b⟩ with ⟨-, hv⟩ | ⟨hsought, -⟩ | ⟨hno, -, -⟩
    · exact congrArg Prod.fst hv
    · exact absurd hplain hsought.not_plain
    · exact absurd hplain hno

/-- A search is stopped if a way leads to a section that is sought: it would have offered the
last edge of that way otherwise. -/
theorem search_stops (hsought : n.Sought w start position node)
    (hway : w.Way start.node node hops) : (n.search w start position).1 = false := by
  have hvisit : ∀ t h, (n.seek w start position t h).1 = (n.seek w start position {} h).1 :=
    seek_verdict
  obtain ⟨seen, left, entered, hdone, -⟩ | ⟨before, last, -, -, hwalk⟩ :=
    walk_underway hvisit w.edgeList start.node {}
  · obtain ⟨rfl, -⟩ | ⟨a, e, rest, -, hbefore, hinner, he, hends⟩ := hway.cases_last
    · exact absurd rfl (hsought.ne_start hstart)
    have hentered := hdone.mem_entered (goes_of_way hbefore hinner)
    obtain ⟨g, hg, rfl⟩ := hdone.offered hentered he (hends.touches_iff.mpr (Or.inl rfl))
    rcases (hdone.along g hg).between.eq_or hends with ⟨-, htarget⟩ | ⟨hsource, -⟩
    · have hgoing := hdone.going g hg
      rcases n.seek_cases w start position {} g with ⟨hplain, -⟩ | ⟨-, hv⟩ | ⟨-, hno, -⟩
      · exact absurd (htarget ▸ hplain) hsought.not_plain
      · exact absurd (congrArg Prod.fst hv) hgoing
      · exact absurd (htarget ▸ hsought) hno
    · have hreached := hdone.reached _ (hsource ▸ (hdone.ends g hg).1)
      rcases hreached.cases_tail with hnode | ⟨b, -, f, -, -, honward⟩
      · exact absurd hnode (hsought.ne_start hstart)
      · exact absurd (seek_eq_onward (Prod.ext honward rfl)).1 hsought.not_plain
  · rw [search, hwalk]

omit hstart

/-- A section, another one than the one at the start, has the position in its voltage level. -/
structure SectionAt (n : Network) (b : BusbarSection) (position : BusbarPosition)
    (t : BusbarSection) : Prop where
  held : n.busbarSections[t.id]? = some t
  ne : t.id ≠ b.id
  voltageLevel : t.voltageLevel = b.voltageLevel
  position : t.position = some position

theorem Coherent.sought_iff (h : n.Coherent False) {b : BusbarSection}
    (hw : n.inside? b.voltageLevel = some (.nodeBreaker w)) :
    n.Sought w b.rail position node ↔ ∃ t, n.SectionAt b position t ∧ t.node = node := by
  constructor
  · rintro ⟨a, ha, hne, hposition⟩
    obtain ⟨t, ht, hposition⟩ := Option.bind_eq_some_iff.mp hposition
    obtain ⟨hvl, hnode⟩ := h.section_of_terminal hw ha ht
    have hid : t.id = a.connectable := h.connectable_id _ (.busbarSection t) ht
    exact ⟨t, ⟨hid.symm ▸ ht, fun he => hne (hid.symm.trans he), hvl, hposition⟩, hnode⟩
  · rintro ⟨t, ht, rfl⟩
    obtain ⟨w', hw', hterminal⟩ := h.holds_rail (h.hasRail ht.held)
    rw [ht.voltageLevel, hw] at hw'
    cases hw'
    exact ⟨_, hterminal, ht.ne, by simp [BusbarSection.rail, ht.held, ht.position]⟩

/-- The neighbour is the section, and its switches are those of a way that comes to no node
twice: the last hop of the search, and the hops that lead back from it to the start. -/
structure FoundAlong (n : Network) (w : Wiring) (b : BusbarSection) (position : BusbarPosition)
    (found : Neighbour) (t : BusbarSection) (last : Hop) (hops : List Hop) : Prop where
  sectionAt : n.SectionAt b position t
  node_eq : found.node = t.node
  last_found : (n.search w b.rail position).2.found = some last
  retraces : Trace.Retraces (n.search w b.rail position).2.parents last.source hops
  way : w.Way b.node t.node (last :: hops)
  nodup_waypoints : (waypoints t.node (last :: hops)).Nodup
  switches_eq : found.switches = switchIds ((last :: hops).map (·.edge))
  nodup_switches : found.switches.Nodup

/-- The search for a neighbour finds one exactly if a way leads to a section at the position,
and what it finds lies along such a way. -/
structure FindsNeighbour (n : Network) (w : Wiring) (b : BusbarSection)
    (position : BusbarPosition) : Prop where
  isSome_iff : (n.neighbour? w b.rail position).isSome ↔
    ∃ t hops, n.SectionAt b position t ∧ w.Way b.node t.node hops
  foundAlong : ∀ found, n.neighbour? w b.rail position = some found →
    ∃ t last hops, n.FoundAlong w b position found t last hops

theorem Coherent.findsNeighbour (h : n.Coherent False) {b : BusbarSection}
    (hw : n.inside? b.voltageLevel = some (.nodeBreaker w))
    (hstart : w.terminals[b.rail.node]? = some ⟨b.rail.id, .one⟩) (position : BusbarPosition) :
    n.FindsNeighbour w b position := by
  have hends := search_ends hstart n position
  refine ⟨⟨fun hsome => ?_, ?_⟩, fun found hfound => ?_⟩
  · rcases hends with ⟨-, hnone⟩ | ⟨-, last, hops, -, hsought, hway, -⟩
    · simp [neighbour?_eq, hnone] at hsome
    · obtain ⟨t, ht, hnode⟩ := (h.sought_iff hw).mp hsought
      exact ⟨t, _, ht, hnode ▸ hway⟩
  · rintro ⟨t, hops, ht, hway⟩
    have hstops := search_stops hstart ((h.sought_iff hw).mpr ⟨t, ht, rfl⟩) hway
    rcases hends with ⟨hback, -⟩ | ⟨-, last, hops, hlast, -⟩
    · exact absurd (hback.symm.trans hstops) Bool.noConfusion
    · simp [neighbour?_eq, hlast]
  · have hswitches := (neighbour?_reached (h.sound _ w hw) hfound).nodup
    rw [neighbour?_eq] at hfound
    obtain ⟨last, hlast, rfl⟩ := Option.map_eq_some_iff.mp hfound
    rcases hends with ⟨-, hnone⟩ | ⟨-, last', hops, hlast', hsought, hway, hretraces, hnodup⟩
    · cases hnone.symm.trans hlast
    · cases hlast.symm.trans hlast'
      obtain ⟨t, ht, hnode⟩ := (h.sought_iff hw).mp hsought
      have hback := Trace.switchesTo_eq hretraces (List.nodup_cons.mp hnodup).2
      refine ⟨t, last, hops, ht, hnode.symm, hlast, hretraces, hnode ▸ hway, hnode ▸ hnodup,
        ?_, hswitches⟩
      cases hlink : last.edge.switch? <;> simp [hback, switchIds, hlink]

/-- In every network that can come about, the search from a busbar section for one at a position
is made on the wiring of its voltage level, and finds one exactly if a way leads there. -/
theorem neighbour_on_way (id : String) (serial : Nat) (ops : List Operation) {key : String}
    {b : BusbarSection} (hb : ((empty id serial).after ops).busbarSections[key]? = some b)
    (position : BusbarPosition) :
    ∃ w, ((empty id serial).after ops).wiring b.voltageLevel = .ok w ∧
      ((empty id serial).after ops).FindsNeighbour w b position := by
  have hn := (coherent_empty False id serial).after ops False.elim
  obtain ⟨w, hw, hterminal⟩ := hn.holds_rail (hn.hasRail hb)
  exact ⟨w, wiring_eq_ok_iff.mpr hw, hn.findsNeighbour hw hterminal position⟩

/-- The section in the middle is next to the first one over an internal connection and a ring of
two switches. The last section is behind it. -/
def ringedSections : List Operation :=
  [.change (.addVoltageLevel { id := "V" }),
    .change (.addBusbarSection
      { voltageLevel := "V", id := "B1", node := 0, position := some ⟨1, 1⟩ }),
    .change (.addBusbarSection
      { voltageLevel := "V", id := "B2", node := 1, position := some ⟨1, 2⟩ }),
    .change (.addBusbarSection
      { voltageLevel := "V", id := "B3", node := 2, position := some ⟨1, 3⟩ }),
    .change (.addConnection "V" 0 3),
    .change (.addSwitch { voltageLevel := "V", id := "S1", node1 := 3, node2 := 4 }),
    .change (.addSwitch { voltageLevel := "V", id := "S2", node1 := 4, node2 := 3 }),
    .change (.addSwitch { voltageLevel := "V", id := "S3", node1 := 1, node2 := 4 }),
    .change (.addSwitch { voltageLevel := "V", id := "S4", node1 := 1, node2 := 2 })]

theorem neighbour_on_way_ringedSections :
    ∃ w, ((empty "N" 0).after ringedSections).wiring "V" = .ok w ∧
      ((empty "N" 0).after ringedSections).FindsNeighbour w
        ⟨"B1", none, "V", 0, some ⟨1, 1⟩⟩ ⟨1, 2⟩ ∧
      (((empty "N" 0).after ringedSections).neighbour? w ⟨"B1", 0⟩ ⟨1, 2⟩).map
        (fun found => (found.node, found.switches)) = some (1, ["S3", "S1"]) ∧
      (((empty "N" 0).after ringedSections).neighbour? w ⟨"B1", 0⟩ ⟨1, 3⟩).isNone := by
  have hfound : (((empty "N" 0).after ringedSections).wiring "V").toOption.map (fun w =>
      ((((empty "N" 0).after ringedSections).neighbour? w ⟨"B1", 0⟩ ⟨1, 2⟩).map
        (fun found => (found.node, found.switches)),
        (((empty "N" 0).after ringedSections).neighbour? w ⟨"B1", 0⟩ ⟨1, 3⟩).isNone)) =
      some (some (1, ["S3", "S1"]), true) := by
    decide +kernel
  have hb : ((empty "N" 0).after ringedSections).busbarSections["B1"]? =
      some ⟨"B1", none, "V", 0, some ⟨1, 1⟩⟩ := by
    decide +kernel
  obtain ⟨w, hw, hfinds⟩ := neighbour_on_way "N" 0 ringedSections hb ⟨1, 2⟩
  rw [hw] at hfound
  obtain ⟨hnext, hlast⟩ := Prod.mk.inj (Option.some.inj hfound)
  exact ⟨w, hw, hfinds, hnext, hlast⟩

end Network

end Switchyard
