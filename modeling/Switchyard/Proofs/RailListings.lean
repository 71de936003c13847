import Switchyard.Proofs.BayRails
import Switchyard.Proofs.Nodes
import Switchyard.Proofs.RailSearches

namespace Switchyard

open Std Relation

namespace RailSearch

/-- A note is added to the entry of the first hop, which keeps what it says of the switch. -/
theorem kind_note {s : RailSearch} {rail : String} {node f : Node} {hop : Switch} {a : Attachment}
    {r : RailSwitch} (h : (s.note rail node hop a).found[f]? = some r) :
    f = node ∧ r.kind = hop.kind ∧ r.fictitious = hop.fictitious ∨
      ∃ r', s.found[f]? = some r' ∧ r.kind = r'.kind ∧ r.fictitious = r'.fictitious := by
  simp only [note, ExtTreeMap.getElem?_insert, Std.compare_eq_iff_eq] at h
  split at h
  next he =>
    subst he
    cases h
    cases hn : s.found[node]? with
    | none => exact Or.inl (by simp [ExtTreeMap.getD_eq_getD_getElem?, hn])
    | some r' => exact Or.inr ⟨r', rfl, by simp [ExtTreeMap.getD_eq_getD_getElem?, hn]⟩
  next he => exact Or.inr ⟨r, h, rfl, rfl⟩

end RailSearch

namespace Wiring

variable {w : Wiring} {rail : Rail} {a b c f start node : Node} {x : Attachment} {e : Edge}
  {edges : List Edge} {entered trail : List Node} {s : RailSearch} {r : RailSwitch}

/-- An edge goes on from a node that holds no terminal. Neither end is `start`. -/
def Onward (w : Wiring) (start a b : Node) : Prop :=
  w.Plain a ∧ a ≠ start ∧ b ≠ start ∧ ∃ e ∈ w.edgeList, e.Between a b

/-- A way leads from the first node to the second one. It passes neither `start` nor a node
that holds a terminal. -/
abbrev Behind (w : Wiring) (start : Node) : Node → Node → Prop :=
  ReflTransGen (w.Onward start)

/-- A way leads from `start` to the node: a switch first, then over nodes without terminals. -/
def Ahead (w : Wiring) (start t : Node) : Prop :=
  ∃ a, w.Joined start a ∧ a ≠ start ∧ w.Behind start a t

/-- The switch joins the nodes. -/
def JoinedBy (w : Wiring) (s : Switch) (a b : Node) : Prop :=
  ∃ e ∈ w.edgeList, w.switchOf e = some s ∧ e.Between a b

/-- The switches at a busbar section list all terminals ahead of it and no others. Each of
them is found by its far end, and lists what is attached behind that. -/
structure ListsAhead (w : Wiring) (rail : Rail) : Prop where
  listed_iff : ∀ x, (∃ (f : Node) (r : RailSwitch), (w.railSwitches rail)[f]? = some r ∧
    x ∈ r.attachments) ↔ ∃ t, w.Ahead rail.node t ∧ w.terminals[t]? = some x
  entry : ∀ (f : Node) r, (w.railSwitches rail)[f]? = some r → f ≠ rail.node ∧
    (∃ s, w.JoinedBy s rail.node f ∧ r.kind = s.kind ∧ r.fictitious = s.fictitious) ∧
    ∀ x, x ∈ r.attachments ↔ ∃ t, w.Behind rail.node f t ∧ w.terminals[t]? = some x

/-- What a search has noted of the switches at the start: each entry is that of such a switch,
and each one that leads straight to a terminal has its entry once it was offered. -/
structure Fronted (w : Wiring) (rail : Rail) (edges : List Edge) (s : RailSearch) : Prop where
  hop : ∀ f sw, s.hop = some (f, sw) → w.JoinedBy sw rail.node f
  known : ∀ (f : Node) r, s.found[f]? = some r →
    ∃ sw, w.JoinedBy sw rail.node f ∧ r.kind = sw.kind ∧ r.fictitious = sw.fictitious
  listed : ∀ e ∈ w.edgeList, (w.switchOf e).isSome → ∀ f x, e.Between rail.node f →
    f ≠ rail.node → w.terminals[f]? = some x → e ∈ edges ∨ x ∈ s.met f

namespace Fronted

theorem initial (w : Wiring) (rail : Rail) : w.Fronted rail w.edgeList {} where
  hop := by simp
  known := by simp
  listed := fun _ he _ _ _ _ _ _ => Or.inl he

theorem hop_turned (h : w.Fronted rail edges s) (he : e ∈ w.edgeList) (ht : e.touches node = true) :
    ∀ f sw, (w.turned rail s ⟨node, e, e.farEnd node⟩).hop = some (f, sw) →
      w.JoinedBy sw rail.node f := by
  intro f sw hsome
  unfold turned at hsome
  split at hsome
  next hnode =>
    obtain rfl : node = rail.node := hnode
    obtain ⟨sw', hsw, heq⟩ := Option.map_eq_some_iff.mp hsome
    cases heq
    exact ⟨e, he, hsw, Edge.between_farEnd ht⟩
  next => exact h.hop f sw hsome

theorem source_eq (ht : e.touches node = true) (hnode : node = rail.node ∨ w.Plain node)
    (hbetween : e.Between rail.node f) (hf : f ≠ rail.node) (hx : w.terminals[f]? = some x) :
    node = rail.node ∧ e.farEnd node = f := by
  rcases hbetween.eq_or (Edge.between_farEnd ht) with ⟨hstart, hfar⟩ | ⟨-, hfar⟩
  · exact ⟨hstart.symm, hfar.symm⟩
  · rcases hnode with hnode | hplain
    · exact absurd (hfar.trans hnode) hf
    · exact absurd (hfar ▸ hplain) (not_plain_of_terminal hx)

/-- Entries only grow, and a terminal that a switch leads straight to gets its entry. -/
theorem listed_erase (h : w.Fronted rail edges s) (ht : e.touches node = true)
    (hnode : node = rail.node ∨ w.Plain node) {s' : RailSearch} (hmono : ∀ g, s.met g ⊆ s'.met g)
    (hnew : ∀ y, (w.switchOf e).isSome → node = rail.node → e.farEnd node ≠ rail.node →
      w.terminals[e.farEnd node]? = some y → y ∈ s'.met (e.farEnd node)) :
    ∀ e' ∈ w.edgeList, (w.switchOf e').isSome → ∀ g y, e'.Between rail.node g → g ≠ rail.node →
      w.terminals[g]? = some y → e' ∈ edges.erase e ∨ y ∈ s'.met g := by
  intro e' he' hswitch g y hbetween hg hy
  by_cases hee : e' = e
  · subst hee
    obtain ⟨hstart, rfl⟩ := source_eq ht hnode hbetween hg hy
    exact Or.inr (hnew y hswitch hstart hg hy)
  · exact (h.listed e' he' hswitch g y hbetween hg hy).imp (List.mem_erase_of_ne hee).mpr
      fun hin => hmono g hin

theorem offer (h : w.Fronted rail edges s) (hsub : edges ⊆ w.edgeList) (he : e ∈ edges)
    (ht : e.touches node = true) (hnode : node = rail.node ∨ w.Plain node) :
    w.Fronted rail (edges.erase e) (w.railVisit rail s ⟨node, e, e.farEnd node⟩).2 := by
  have hhop := h.hop_turned (hsub he) ht
  have hknown : ∀ (g : Node) r, (w.turned rail s ⟨node, e, e.farEnd node⟩).found[g]? = some r → _ :=
    fun g r hr => h.known g r (w.found_turned rail s _ ▸ hr)
  have hmet : ∀ g, (w.turned rail s ⟨node, e, e.farEnd node⟩).met g = s.met g := fun g => by
    rw [RailSearch.met, found_turned, RailSearch.met]
  have hsame : ∀ g, s.met g ⊆ (w.turned rail s ⟨node, e, e.farEnd node⟩).met g := fun g =>
    (hmet g).symm ▸ List.Subset.refl _
  rcases w.railVisit_cases rail s ⟨node, e, e.farEnd node⟩ with ⟨hfar, hv⟩ |
    ⟨hfar, ⟨hnone, hv⟩ | ⟨g, hop, hsome, ⟨hplain, hv⟩ | ⟨y, hy, hv⟩⟩⟩ <;> rw [hv]
  · exact ⟨h.hop, h.known, h.listed_erase ht hnode (fun _ => List.Subset.refl _)
      fun _ _ _ hne => absurd hfar hne⟩
  · refine ⟨hhop, hknown, h.listed_erase ht hnode hsame fun y hswitch hstart _ _ => ?_⟩
    obtain ⟨sw, hsw⟩ := Option.isSome_iff_exists.mp hswitch
    simp [turned, hstart, hsw] at hnone
  · exact ⟨hhop, hknown, h.listed_erase ht hnode hsame fun y _ _ _ hy =>
      absurd hplain (not_plain_of_terminal hy)⟩
  · refine ⟨hhop, fun g' r hr => ?_, h.listed_erase ht hnode (fun g' z hz => ?_) ?_⟩
    · rcases RailSearch.kind_note hr with ⟨rfl, hkind⟩ | ⟨r', hr', hkind, hfictitious⟩
      · exact ⟨hop, hhop _ _ hsome, hkind⟩
      · obtain ⟨sw, hsw, hkind', hfictitious'⟩ := hknown g' r' hr'
        exact ⟨sw, hsw, hkind.trans hkind', hfictitious.trans hfictitious'⟩
    · rw [RailSearch.met_note, hmet]
      split
      · exact List.mem_append_left _ hz
      · exact hz
    · intro z hswitch hstart _ hz
      obtain ⟨sw, hsw⟩ := Option.isSome_iff_exists.mp hswitch
      have hgate : g = e.farEnd node := by
        simp only [turned, hstart, hsw, if_true, Option.map_some, Option.some.injEq,
          Prod.mk.injEq] at hsome
        rw [← hsome.1, hstart]
      cases hz.symm.trans hy
      rw [RailSearch.met_note, if_pos hgate]
      exact List.mem_append_right _ (List.mem_singleton_self _)

end Fronted

/-- A search ends with an entry for each switch that leads straight to a terminal. -/
theorem fronted_railSwitches (hstart : ¬w.Plain rail.node) :
    ∃ s left, s.found = w.railSwitches rail ∧ w.Fronted rail left s ∧
      ∀ e ∈ left, e.touches rail.node = false := by
  have hoffer : ∀ {edges entered node rest s e}, w.Searching rail edges entered (node :: rest) s →
      w.Fronted rail edges s → e ∈ edges → e.touches node = true →
      w.Fronted rail (edges.erase e) (w.railVisit rail s ⟨node, e, e.farEnd node⟩).2 := by
    rintro edges entered node rest s e ⟨gates, hE, -⟩ hF he ht
    exact hF.offer hE.edges_sub he ht (hE.plain node (hE.trail_sub List.mem_cons_self))
  obtain ⟨left, known, ⟨gates, hE, -⟩, hF⟩ :=
    walk_keeps (p := fun edges entered trail s =>
        w.Searching rail edges entered trail s ∧ w.Fronted rail edges s)
      (w.railVisit_ne_stop rail) (fun h hnone => ⟨h.1.back hnone, h.2⟩)
      (fun h he ht hin => ⟨h.1.pass hstart he ht hin, hoffer h.1 h.2 he ht⟩)
      (fun h he ht honward hnew => ⟨h.1.enter hstart he ht honward hnew, hoffer h.1 h.2 he ht⟩)
      w.edgeList [rail.node] [rail.node] {}
      ⟨⟨[], .initial w rail.node, .initial w rail⟩, .initial w rail⟩
  exact ⟨_, left, (w.railSwitches_eq rail).symm, hF,
    (hE.left _ hE.start_mem).resolve_left List.not_mem_nil⟩

section Ways

variable (hstart : ¬w.Plain start)
include hstart

theorem behind_of_inner (ha : w.Plain a) (h : w.Inner a b) : w.Behind start a b := by
  induction h with
  | refl => exact .refl
  | tail hbefore hstep ih =>
    have hb := plain_of_inner ha hbefore
    exact ih.tail ⟨hb, fun he => hstart (he ▸ hb), fun he => hstart (he ▸ hstep.2), hstep.1⟩

omit hstart in
theorem inner_of_behind (h : w.Behind start a b) (hb : w.Plain b) : w.Inner a b := by
  induction h with
  | refl => exact .refl
  | tail _ hstep ih => exact (ih hstep.1).tail ⟨hstep.2.2.2, hb⟩

theorem leads_iff_behind (ha : w.Plain a) :
    (∃ e ∈ w.edgeList, w.Leads start a x e) ↔
      ∃ t, w.Behind start a t ∧ w.terminals[t]? = some x := by
  constructor
  · rintro ⟨e, he, b, c, hinner, hbc, hc, hx⟩
    have hb := plain_of_inner ha hinner
    exact ⟨c, (behind_of_inner hstart ha hinner).tail
      ⟨hb, fun he => hstart (he ▸ hb), hc, e, he, hbc⟩, hx⟩
  · rintro ⟨t, hbehind, hx⟩
    cases hbehind with
    | refl => exact absurd ha (not_plain_of_terminal hx)
    | tail hbefore hstep =>
      obtain ⟨hb, -, hc, e, he, hbc⟩ := hstep
      exact ⟨e, he, _, t, inner_of_behind hbefore hb, hbc, hc, hx⟩

end Ways

theorem eq_of_behind (ha : ¬w.Plain a) (h : w.Behind start a b) : b = a := by
  rcases h.cases_head with rfl | ⟨c, hstep, -⟩
  · rfl
  · exact absurd hstep.1 ha

/-- An entry lists what is attached behind the far end of its switch. -/
theorem mem_attachments_iff (hstart : ¬w.Plain rail.node)
    (hr : (w.railSwitches rail)[f]? = some r) :
    x ∈ r.attachments ↔ ∃ t, w.Behind rail.node f t ∧ w.terminals[t]? = some x := by
  obtain ⟨-, hne, -, -, hcount, hall⟩ := railSwitches_spec hstart hr
  by_cases hf : w.Plain f
  · rw [← leads_iff_behind hstart hf, ← List.count_pos_iff, hcount hf x, List.countP_pos_iff]
    simp only [leads_eq_true_iff]
  · obtain ⟨y, hy⟩ := mem_iff_exists_getElem?.mp (not_not.mp hf)
    constructor
    · intro hx
      exact ⟨f, .refl, hall y hy x hx ▸ hy⟩
    · rintro ⟨t, hbehind, hx⟩
      obtain rfl := eq_of_behind hf hbehind
      obtain ⟨z, hz⟩ := List.exists_mem_of_ne_nil _ hne
      cases hy.symm.trans hx
      exact hall _ hy z hz ▸ hz

theorem exists_railSwitch_straight (hstart : ¬w.Plain rail.node) (hjoined : w.Joined rail.node f)
    (hf : f ≠ rail.node) (hx : w.terminals[f]? = some x) :
    ∃ r, (w.railSwitches rail)[f]? = some r ∧ x ∈ r.attachments := by
  obtain ⟨s, left, hfound, hF, hleft⟩ := fronted_railSwitches (w := w) hstart
  obtain ⟨e, he, hswitch, hends⟩ := hjoined
  have hmet := (hF.listed e he hswitch f x hends hf hx).resolve_left fun hin => by
    have hno := hleft e hin
    rw [hends.touches_iff.mpr (Or.inl rfl)] at hno
    cases hno
  rw [RailSearch.met, hfound] at hmet
  cases hr : (w.railSwitches rail)[f]? with
  | none => simp [hr] at hmet
  | some r => exact ⟨r, rfl, by simpa [hr] using hmet⟩

theorem listsAhead (hstart : ¬w.Plain rail.node) : w.ListsAhead rail where
  listed_iff := fun x => by
    constructor
    · rintro ⟨f, r, hr, hx⟩
      obtain ⟨-, -, hne, hjoined, -, -⟩ := railSwitches_spec hstart hr
      obtain ⟨t, hbehind, ht⟩ := (mem_attachments_iff hstart hr).mp hx
      exact ⟨t, ⟨f, hjoined, hne, hbehind⟩, ht⟩
    · rintro ⟨t, ⟨a, hjoined, hne, hbehind⟩, hx⟩
      by_cases ha : w.Plain a
      · obtain ⟨e, he, hleads⟩ := (leads_iff_behind hstart ha).mpr ⟨t, hbehind, hx⟩
        obtain ⟨f, r, hr, hf, hinner⟩ := exists_railSwitch hstart hjoined ha he hleads
        -- What is behind one of the nodes is behind the other one.
        have hback := behind_of_inner hstart hf (inner_symm ha hinner)
        exact ⟨f, r, hr, (mem_attachments_iff hstart hr).mpr ⟨t, hback.trans hbehind, hx⟩⟩
      · obtain rfl := eq_of_behind ha hbehind
        obtain ⟨r, hr, hin⟩ := exists_railSwitch_straight hstart hjoined hne hx
        exact ⟨t, r, hr, hin⟩
  entry := fun f r hr => by
    obtain ⟨s, left, hfound, hF, -⟩ := fronted_railSwitches (w := w) hstart
    exact ⟨(railSwitches_spec hstart hr).2.2.1, hF.known f r (hfound ▸ hr),
      fun _ => mem_attachments_iff hstart hr⟩

end Wiring

namespace Network

/-- In every network that can come about, the switches at a busbar section list the terminals
ahead of it. -/
theorem railSwitches_list_ahead (id : String) (serial : Nat) (ops : List Operation) {key : String}
    {b : BusbarSection} {w : Wiring}
    (hb : ((empty id serial).after ops).busbarSections[key]? = some b)
    (hw : ((empty id serial).after ops).wiring b.voltageLevel = .ok w) :
    w.ListsAhead b.rail := by
  have hn := (coherent_empty False id serial).after ops False.elim
  obtain ⟨w', hw', hterminal⟩ := hn.holds_rail (hn.hasRail hb)
  cases (wiring_eq_ok_iff.mp hw).symm.trans hw'
  exact Wiring.listsAhead (Wiring.not_plain_of_terminal hterminal)

/-- Two switches side by side lead from the busbar section to a ring with a load, a third one
straight to another load, and an internal connection to a load that is not looked for. -/
def ringedRail : List Operation :=
  [.change (.addVoltageLevel { id := "V" }),
    .change (.addBusbarSection { voltageLevel := "V", id := "B", node := 0 }),
    .change (.addConnectable (.injection
      { owner := 0, id := "LD1", terminal := some (.atNode "V" 3) })),
    .change (.addConnectable (.injection
      { owner := 0, id := "LD2", terminal := some (.atNode "V" 2) })),
    .change (.addConnectable (.injection
      { owner := 0, id := "LD3", terminal := some (.atNode "V" 6) })),
    .change (.addSwitch
      { voltageLevel := "V", id := "S1", kind := .breaker, node1 := 0, node2 := 1 }),
    .change (.addSwitch { voltageLevel := "V", id := "S2", node1 := 0, node2 := 1 }),
    .change (.addSwitch { voltageLevel := "V", id := "S3", node1 := 1, node2 := 3 }),
    .change (.addConnection "V" 0 2),
    .change (.addConnection "V" 1 5),
    .change (.addSwitch { voltageLevel := "V", id := "S4", node1 := 5, node2 := 0 }),
    .change (.addSwitch { voltageLevel := "V", id := "S5", node1 := 0, node2 := 6 })]

theorem railSwitches_list_ahead_ringedRail :
    ∃ w, ((empty "N" 0).after ringedRail).wiring "V" = .ok w ∧ w.ListsAhead ⟨"B", 0⟩ ∧
      (w.railSwitches ⟨"B", 0⟩).toList.map (fun x => (x.1, x.2.kind, x.2.attachments)) =
        [(1, .breaker, [⟨"LD1", .one⟩]), (6, .disconnector, [⟨"LD3", .one⟩])] := by
  have hfound : (((empty "N" 0).after ringedRail).wiring "V").toOption.map (fun w =>
      (w.railSwitches ⟨"B", 0⟩).toList.map (fun x => (x.1, x.2.kind, x.2.attachments))) =
      some [(1, .breaker, [⟨"LD1", .one⟩]), (6, .disconnector, [⟨"LD3", .one⟩])] := by
    decide +kernel
  have hb : ((empty "N" 0).after ringedRail).busbarSections["B"]? =
      some ⟨"B", none, "V", 0, none⟩ := by
    decide +kernel
  obtain ⟨w, hin, hlist⟩ := exists_wiring_of_map hfound
  have hw := wiring_eq_ok_iff.mpr hin
  exact ⟨w, hw, railSwitches_list_ahead "N" 0 ringedRail hb hw, hlist⟩

end Network

end Switchyard
