import Mathlib.Data.List.Count
import Switchyard.RailSwitch
import Switchyard.Proofs.Tours

namespace Switchyard

open Std Relation

/-- What the steps of a walk that is never stopped keep holds when it is back at its start. -/
theorem walk_keeps {σ : Type} {visit : σ → Hop → Verdict × σ}
    {p : List Edge → List Node → List Node → σ → Prop}
    (hgo : ∀ s h, (visit s h).1 ≠ .stop)
    (back : ∀ {edges entered node rest s}, p edges entered (node :: rest) s →
      (∀ e ∈ edges, e.touches node = false) → p edges entered rest s)
    (pass : ∀ {edges entered node rest s e}, p edges entered (node :: rest) s → e ∈ edges →
      e.touches node = true →
      ((visit s ⟨node, e, e.farEnd node⟩).1 = .onward → e.farEnd node ∈ entered) →
      p (edges.erase e) entered (node :: rest) (visit s ⟨node, e, e.farEnd node⟩).2)
    (enter : ∀ {edges entered node rest s e}, p edges entered (node :: rest) s → e ∈ edges →
      e.touches node = true → (visit s ⟨node, e, e.farEnd node⟩).1 = .onward →
      e.farEnd node ∉ entered →
      p (edges.erase e) (e.farEnd node :: entered) (e.farEnd node :: node :: rest)
        (visit s ⟨node, e, e.farEnd node⟩).2)
    (edges : List Edge) (entered trail : List Node) (s : σ) (h : p edges entered trail s) :
    ∃ left known, p left known [] (walk visit edges entered trail s).2 := by
  refine walk_ends (p := p) (q := fun r => ∃ left known, p left known [] r.2) ?_ ?_ ?_ ?_ ?_ edges
    entered trail s h
  · exact fun h => ⟨_, _, h⟩
  · exact back
  · exact fun {_ _ _ _ s e _} _ _ _ hvisit => absurd (congrArg Prod.fst hvisit) (hgo s _)
  · intro edges entered node rest s e verdict next h he ht hvisit _ hin
    have hnext := pass h he ht
    rw [hvisit] at hnext
    exact hnext hin
  · intro edges entered node rest s e next h he ht hvisit hnew
    have hnext := enter h he ht
    rw [hvisit] at hnext
    exact hnext rfl hnew

namespace Wiring

/-- No terminal is at the node. -/
def Plain (w : Wiring) (a : Node) : Prop :=
  a ∉ w.terminals

/-- The second node is behind the first one: a way through nodes without terminals leads there. -/
abbrev Inner (w : Wiring) : Node → Node → Prop :=
  Reaches w.edgeList w.Plain

/-- A switch joins the nodes. -/
def Joined (w : Wiring) (a b : Node) : Prop :=
  ∃ e ∈ w.edgeList, (w.switchOf e).isSome ∧ e.Between a b

/-- The edge leads from a node behind `f` to the side of a connectable, not at `start`. -/
def Leads (w : Wiring) (start f : Node) (x : Attachment) (e : Edge) : Prop :=
  ∃ b c, w.Inner f b ∧ e.Between b c ∧ c ≠ start ∧ w.terminals[c]? = some x

open Classical in
noncomputable def leads (w : Wiring) (start f : Node) (x : Attachment) (e : Edge) : Bool :=
  decide (w.Leads start f x e)

variable {w : Wiring} {a b c f start node : Node} {x : Attachment} {e : Edge}

theorem plain_of_inner (hf : w.Plain f) (h : w.Inner f b) : w.Plain b := by
  cases h with
  | refl => exact hf
  | tail _ hstep => exact hstep.2

theorem inner_symm (hf : w.Plain f) (h : w.Inner f b) : w.Inner b f := by
  induction h with
  | refl => exact .refl
  | tail hbefore hstep ih =>
    obtain ⟨⟨e, he, hends⟩, -⟩ := hstep
    exact ih.head ⟨⟨e, he, hends.symm⟩, plain_of_inner hf hbefore⟩

theorem not_plain_of_terminal (h : w.terminals[a]? = some x) : ¬w.Plain a :=
  not_not.mpr (mem_iff_exists_getElem?.mpr ⟨x, h⟩)

theorem plain_iff : w.Plain a ↔ w.terminals[a]? = none := by
  simp [Plain]

theorem leads_eq_true_iff : w.leads start f x e = true ↔ w.Leads start f x e := by
  simp [leads]

theorem leads_iff (hnode : node = start ∨ w.Plain node) (ht : e.touches node = true) :
    w.leads start f x e = true ↔
      w.Inner f node ∧ e.farEnd node ≠ start ∧ w.terminals[e.farEnd node]? = some x := by
  have hends : e.Between node (e.farEnd node) := Edge.between_farEnd ht
  rw [leads_eq_true_iff]
  constructor
  · rintro ⟨b, c, hb, hbc, hc, hx⟩
    rcases hbc.eq_or hends with ⟨rfl, hfar⟩ | ⟨-, rfl⟩
    · exact ⟨hb, hfar ▸ hc, hfar ▸ hx⟩
    · exact absurd (hnode.resolve_left hc) (not_plain_of_terminal hx)
  · rintro ⟨hinner, hc, hx⟩
    exact ⟨node, _, hinner, hends, hc, hx⟩

/-- How far a search has come: it went from `start` into what lies behind the `gates`, and
`edges` are still to be offered. -/
structure Explored (w : Wiring) (start : Node) (gates : List Node) (edges : List Edge)
    (entered trail : List Node) : Prop where
  edges_sub : edges ⊆ w.edgeList
  start_mem : start ∈ entered
  trail_sub : trail ⊆ entered
  bottom : start ∉ trail.dropLast
  plain : ∀ b ∈ entered, b = start ∨ w.Plain b
  left : ∀ b ∈ entered, b ∈ trail ∨ ∀ e ∈ edges, e.touches b = false
  closed : ∀ b ∈ entered, ∀ e ∈ w.edgeList, ∀ c, e.Between b c → w.Plain c →
    (b = start → (w.switchOf e).isSome) → e ∈ edges ∨ c ∈ entered
  gate : ∀ f ∈ gates, f ∈ entered ∧ w.Plain f ∧ w.Joined start f
  apart : ∀ f ∈ gates, ∀ g ∈ gates, w.Inner f g → f = g
  housed : ∀ b ∈ entered, b = start ∨ ∃ f ∈ gates, w.Inner f b
  untouched : ∀ p : Edge → Bool, (∀ e, p e = true → ∀ b ∈ entered, e.touches b = false) →
    edges.countP p = w.edgeList.countP p

namespace Explored

variable {gates gates' : List Node} {edges : List Edge} {entered trail : List Node}

theorem initial (w : Wiring) (start : Node) :
    w.Explored start [] w.edgeList [start] [start] where
  edges_sub := List.Subset.refl _
  start_mem := List.mem_singleton_self start
  trail_sub := List.Subset.refl _
  bottom := by simp
  plain := fun b hb => Or.inl (List.mem_singleton.mp hb)
  left := fun b hb => Or.inl hb
  closed := fun _ _ e he _ _ _ _ => Or.inl he
  gate := by simp
  apart := by simp
  housed := fun b hb => Or.inl (List.mem_singleton.mp hb)
  untouched := fun _ _ => rfl

theorem trail_eq (h : w.Explored start gates edges entered (start :: trail)) : trail = [] := by
  cases trail with
  | nil => rfl
  | cons b rest => exact absurd List.mem_cons_self h.bottom

theorem back (h : w.Explored start gates edges entered (node :: trail))
    (hnone : ∀ e ∈ edges, e.touches node = false) :
    w.Explored start gates edges entered trail :=
  { h with
    trail_sub := fun b hb => h.trail_sub (List.mem_cons_of_mem node hb)
    bottom := fun hb => h.bottom (by
      cases trail with
      | nil => cases hb
      | cons c rest => exact List.mem_cons_of_mem node hb)
    left := fun b hb => by
      rcases h.left b hb with hin | hno
      · rcases List.mem_cons.mp hin with rfl | hin
        · exact Or.inr hnone
        · exact Or.inl hin
      · exact Or.inr hno }

/-- Edges that touch what was entered do not count elsewhere. -/
theorem countP_erase_eq (h : w.Explored start gates edges entered (node :: trail)) {e : Edge}
    (ht : e.touches node = true) {p : Edge → Bool}
    (hp : ∀ e, p e = true → ∀ b ∈ entered, e.touches b = false) :
    (edges.erase e).countP p = w.edgeList.countP p := by
  have hout : ¬p e = true := fun hpe => by
    have hno := hp e hpe node (h.trail_sub List.mem_cons_self)
    rw [ht] at hno
    cases hno
  rw [List.countP_erase, if_neg (fun hx => hout hx.2), Nat.sub_zero]
  exact h.untouched p hp

theorem pass (h : w.Explored start gates edges entered (node :: trail)) {e : Edge}
    (ht : e.touches node = true)
    (hin : w.Plain (e.farEnd node) → (node = start → (w.switchOf e).isSome) →
      e.farEnd node ∈ entered) :
    w.Explored start gates (edges.erase e) entered (node :: trail) :=
  { h with
    edges_sub := fun f hf => h.edges_sub (List.mem_of_mem_erase hf)
    left := fun b hb => (h.left b hb).imp_right fun hno f hf =>
      hno f (List.mem_of_mem_erase hf)
    closed := fun b hb f hf c hbc hc hswitch => by
      by_cases hfe : f = e
      · subst hfe
        rcases hbc.eq_or (Edge.between_farEnd ht) with ⟨rfl, rfl⟩ | ⟨-, rfl⟩
        · exact Or.inr (hin hc hswitch)
        · exact Or.inr (h.trail_sub List.mem_cons_self)
      · exact (h.closed b hb f hf c hbc hc hswitch).imp_left (List.mem_erase_of_ne hfe).mpr
    untouched := fun _ hp => h.countP_erase_eq ht hp }

/-- An edge is offered whose far end is entered. It may be a new gate. -/
theorem enter (h : w.Explored start gates edges entered (node :: trail)) {e : Edge}
    (ht : e.touches node = true) (hmay : w.Plain (e.farEnd node)) (hstart : ¬w.Plain start)
    (hnew : e.farEnd node ∉ entered) (hsub : gates ⊆ gates')
    (hgate : ∀ f ∈ gates', f ∈ gates ∨ f = e.farEnd node ∧ w.Joined start f)
    (hapart : ∀ f ∈ gates', ∀ g ∈ gates', w.Inner f g → f = g)
    (hhoused : ∃ f ∈ gates', w.Inner f (e.farEnd node)) :
    w.Explored start gates' (edges.erase e) (e.farEnd node :: entered)
      (e.farEnd node :: node :: trail) where
  edges_sub := fun f hf => h.edges_sub (List.mem_of_mem_erase hf)
  start_mem := List.mem_cons_of_mem _ h.start_mem
  trail_sub := List.cons_subset_cons _ h.trail_sub
  bottom := by
    rw [List.dropLast_cons_cons, List.mem_cons, not_or]
    exact ⟨fun he => hstart (he ▸ hmay), h.bottom⟩
  plain := List.forall_mem_cons.mpr ⟨Or.inr hmay, h.plain⟩
  left := List.forall_mem_cons.mpr ⟨Or.inl List.mem_cons_self, fun b hb =>
    (h.left b hb).imp (List.mem_cons_of_mem _) fun hno f hf => hno f (List.mem_of_mem_erase hf)⟩
  closed := fun b hb f hf c hbc hc hswitch => by
    have hnode := h.trail_sub List.mem_cons_self
    by_cases hfe : f = e
    · subst hfe
      rcases hbc.eq_or (Edge.between_farEnd ht) with ⟨-, rfl⟩ | ⟨-, rfl⟩
      · exact Or.inr List.mem_cons_self
      · exact Or.inr (List.mem_cons_of_mem _ hnode)
    · rcases List.mem_cons.mp hb with rfl | hb
      · by_cases hcin : c ∈ entered
        · exact Or.inr (List.mem_cons_of_mem _ hcin)
        · -- No end of this edge was entered, so it was not offered yet.
          have hcount := h.untouched (· == f) fun g hg a ha => by
            rw [beq_iff_eq.mp hg, Bool.eq_false_iff]
            intro hta
            rcases hbc.touches_iff.mp hta with rfl | rfl
            · exact hnew ha
            · exact hcin ha
          have hpos : 0 < w.edgeList.countP (· == f) :=
            List.countP_pos_iff.mpr ⟨f, hf, by simp⟩
          rw [← hcount] at hpos
          obtain ⟨g, hg, hgf⟩ := List.countP_pos_iff.mp hpos
          exact Or.inl ((List.mem_erase_of_ne hfe).mpr (beq_iff_eq.mp hgf ▸ hg))
      · exact (h.closed b hb f hf c hbc hc hswitch).imp (List.mem_erase_of_ne hfe).mpr
          (List.mem_cons_of_mem _)
  gate := fun f hf => by
    rcases hgate f hf with hold | ⟨rfl, hjoined⟩
    · exact (h.gate f hold).imp_left (List.mem_cons_of_mem _)
    · exact ⟨List.mem_cons_self, hmay, hjoined⟩
  apart := hapart
  housed := List.forall_mem_cons.mpr ⟨Or.inr hhoused, fun b hb =>
    (h.housed b hb).imp_right fun ⟨f, hf, hinner⟩ => ⟨f, hsub hf, hinner⟩⟩
  untouched := fun _ hp => h.countP_erase_eq ht fun f hpf b hb =>
    hp f hpf b (List.mem_cons_of_mem _ hb)

/-- When nothing more is to be offered behind the gates, what was entered there is complete. -/
theorem swept (h : w.Explored start gates edges entered trail) (hstart : ¬w.Plain start)
    (hdone : ∀ b ∈ entered, b ≠ start → ∀ e ∈ edges, e.touches b = false) (hb : b ∈ entered)
    (hplain : w.Plain b) (hbc : w.Inner b c) : c ∈ entered := by
  induction hbc with
  | refl => exact hb
  | @tail c d hbefore hstep ih =>
    obtain ⟨⟨e, he, hends⟩, hd⟩ := hstep
    have hc : c ≠ start := fun hx => hstart (hx ▸ plain_of_inner hplain hbefore)
    refine (h.closed c ih e he d hends hd fun hx => absurd hx hc).resolve_left fun hin => ?_
    have hno := hdone c ih hc e hin
    rw [hends.touches_iff.mpr (Or.inl rfl)] at hno
    cases hno

/-- Behind the gates, a search that is over has offered every edge. -/
theorem countP_leads (h : w.Explored start gates edges entered []) (hstart : ¬w.Plain start)
    (hf : f ∈ gates) (x : Attachment) : edges.countP (w.leads start f x) = 0 := by
  have hdone : ∀ b ∈ entered, ∀ e ∈ edges, e.touches b = false := fun b hb =>
    (h.left b hb).resolve_left List.not_mem_nil
  refine List.countP_eq_zero.mpr fun e he hleads => ?_
  obtain ⟨b, c, hinner, hbc, -, -⟩ := leads_eq_true_iff.mp hleads
  obtain ⟨hin, hplain, -⟩ := h.gate f hf
  have hno := hdone b (h.swept hstart (fun b hb _ => hdone b hb) hin hplain hinner) e he
  rw [hbc.touches_iff.mpr (Or.inl rfl)] at hno
  cases hno

end Explored

end Wiring

namespace RailSearch

/-- The terminals found so far behind a node. -/
def met (s : RailSearch) (f : Node) : List Attachment :=
  (s.found[f]?.map (·.attachments)).getD []

theorem met_note (s : RailSearch) (rail : String) (node : Node) (hop : Switch) (a : Attachment)
    (f : Node) :
    (s.note rail node hop a).met f = if node = f then s.met f ++ [a] else s.met f := by
  unfold met note
  simp only [ExtTreeMap.getElem?_insert, Std.compare_eq_iff_eq]
  by_cases h : node = f
  · subst h
    cases hn : s.found[node]? <;> simp [ExtTreeMap.getD_eq_getD_getElem?, hn]
  · simp [h]

theorem found_note {s : RailSearch} {rail : String} {node f : Node} {hop : Switch} {a : Attachment}
    {r : RailSwitch} (h : (s.note rail node hop a).found[f]? = some r) :
    f ≠ node ∧ s.found[f]? = some r ∨
      f = node ∧ r.attachments = s.met node ++ [a] ∧
        (r.rail = rail ∨ ∃ r', s.found[node]? = some r' ∧ r.rail = r'.rail) := by
  simp only [note, ExtTreeMap.getElem?_insert, Std.compare_eq_iff_eq] at h
  split at h
  next he =>
    subst he
    cases h
    refine Or.inr ⟨rfl, ?_⟩
    cases hn : s.found[node]? <;> simp [met, ExtTreeMap.getD_eq_getD_getElem?, hn]
  next he => exact Or.inl ⟨fun hx => he hx.symm, h⟩

end RailSearch

namespace Wiring

variable {w : Wiring} {a b c f start node : Node} {x : Attachment} {e : Edge} {rail : Rail}
  {gates gates' : List Node} {edges : List Edge} {entered trail : List Node} {s s' : RailSearch}

/-- What the search does at an edge. -/
def railVisit (w : Wiring) (rail : Rail) (s : RailSearch) (h : Hop) : Verdict × RailSearch :=
  if h.target = rail.node then (.leave, s)
  else
    let s :=
      if h.source = rail.node then { s with hop := (w.switchOf h.edge).map (h.target, ·) }
      else s
    match s.hop, w.terminals[h.target]? with
    | none, _ => (.leave, s)
    | some _, none => (.onward, s)
    | some (node, hop), some a => (.leave, s.note rail.id node hop a)

theorem railSwitches_eq (w : Wiring) (rail : Rail) :
    w.railSwitches rail =
      (walk (w.railVisit rail) w.edgeList [rail.node] [rail.node] {}).2.found :=
  rfl

/-- The state of the search when an edge is offered: at the start, the edge is the first hop. -/
def turned (w : Wiring) (rail : Rail) (s : RailSearch) (h : Hop) : RailSearch :=
  if h.source = rail.node then { s with hop := (w.switchOf h.edge).map (h.target, ·) } else s

theorem found_turned (w : Wiring) (rail : Rail) (s : RailSearch) (h : Hop) :
    (w.turned rail s h).found = s.found := by
  unfold turned
  split <;> rfl

theorem railVisit_cases (w : Wiring) (rail : Rail) (s : RailSearch) (h : Hop) :
    h.target = rail.node ∧ w.railVisit rail s h = (.leave, s) ∨
      h.target ≠ rail.node ∧
        ((w.turned rail s h).hop = none ∧ w.railVisit rail s h = (.leave, w.turned rail s h) ∨
          ∃ f hop, (w.turned rail s h).hop = some (f, hop) ∧
            (w.Plain h.target ∧ w.railVisit rail s h = (.onward, w.turned rail s h) ∨
              ∃ a, w.terminals[h.target]? = some a ∧
                w.railVisit rail s h = (.leave, (w.turned rail s h).note rail.id f hop a))) := by
  by_cases htarget : h.target = rail.node
  · exact Or.inl ⟨htarget, by simp [railVisit, htarget]⟩
  · refine Or.inr ⟨htarget, ?_⟩
    have hvisit : w.railVisit rail s h =
        match (w.turned rail s h).hop, w.terminals[h.target]? with
        | none, _ => (.leave, w.turned rail s h)
        | some _, none => (.onward, w.turned rail s h)
        | some (node, hop), some a => (.leave, (w.turned rail s h).note rail.id node hop a) := by
      rw [railVisit, if_neg htarget]
      rfl
    rw [hvisit, plain_iff]
    cases hhop : (w.turned rail s h).hop with
    | none => exact Or.inl ⟨rfl, rfl⟩
    | some hop =>
      obtain ⟨f, hop⟩ := hop
      refine Or.inr ⟨f, hop, rfl, ?_⟩
      cases hterminal : w.terminals[h.target]? with
      | none => exact Or.inl ⟨rfl, rfl⟩
      | some a => exact Or.inr ⟨a, rfl, rfl⟩

theorem railVisit_ne_stop (w : Wiring) (rail : Rail) (s : RailSearch) (h : Hop) :
    (w.railVisit rail s h).1 ≠ .stop := by
  rcases w.railVisit_cases rail s h with ⟨-, hv⟩ |
    ⟨-, ⟨-, hv⟩ | ⟨_, _, -, ⟨-, hv⟩ | ⟨_, -, hv⟩⟩⟩ <;> simp [hv]

/-- What a search has noted: each gate has as many notes of a side as edges that lead there
were offered. -/
structure Noted (w : Wiring) (rail : Rail) (gates : List Node) (edges : List Edge)
    (trail : List Node) (s : RailSearch) : Prop where
  current : ∀ b ∈ trail, b = rail.node ∨ ∃ f hop, s.hop = some (f, hop) ∧ f ∈ gates ∧ w.Inner f b
  count : ∀ f ∈ gates, ∀ x, (s.met f).count x + edges.countP (w.leads rail.node f x) =
    w.edgeList.countP (w.leads rail.node f x)
  known : ∀ (f : Node) r, s.found[f]? = some r → r.rail = rail.id ∧ r.attachments ≠ [] ∧
    (f ∈ gates ∨ f ≠ rail.node ∧ w.Joined rail.node f ∧
      ∃ x, w.terminals[f]? = some x ∧ ∀ y ∈ r.attachments, y = x)

namespace Noted

theorem initial (w : Wiring) (rail : Rail) : w.Noted rail [] w.edgeList [rail.node] {} where
  current := fun b hb => Or.inl (List.mem_singleton.mp hb)
  count := by simp
  known := by simp

theorem count_erase (h : w.Noted rail gates edges trail s) {e : Edge} (he : e ∈ edges)
    (hmet : ∀ f ∈ gates, ∀ x, (s'.met f).count x =
      (s.met f).count x + if w.leads rail.node f x e then 1 else 0) :
    ∀ f ∈ gates, ∀ x, (s'.met f).count x + (edges.erase e).countP (w.leads rail.node f x) =
      w.edgeList.countP (w.leads rail.node f x) := by
  intro f hf x
  have hold := h.count f hf x
  rw [hmet f hf x, List.countP_erase]
  by_cases hleads : w.leads rail.node f x e = true
  · have hpos : 0 < edges.countP (w.leads rail.node f x) :=
      List.countP_pos_iff.mpr ⟨e, he, hleads⟩
    rw [if_pos hleads, if_pos ⟨he, hleads⟩]
    omega
  · rw [if_neg hleads, if_neg fun hx => hleads hx.2]
    omega

end Noted

/-- The search has come this far, behind some gates. -/
def Searching (w : Wiring) (rail : Rail) (edges : List Edge) (entered trail : List Node)
    (s : RailSearch) : Prop :=
  ∃ gates, w.Explored rail.node gates edges entered trail ∧ w.Noted rail gates edges trail s

namespace Searching

theorem not_leads (hE : w.Explored rail.node gates edges entered (node :: trail))
    (hstart : ¬w.Plain rail.node) (ht : e.touches node = true)
    (hfar : e.farEnd node = rail.node ∨ w.Plain (e.farEnd node) ∨ node = rail.node)
    (hf : f ∈ gates) : ¬w.leads rail.node f x e = true := fun hleads => by
  have hplain := (hE.gate f hf).2.1
  obtain ⟨hinner, hne, hx⟩ :=
    (leads_iff (hE.plain node (hE.trail_sub List.mem_cons_self)) ht).mp hleads
  rcases hfar with hfar | hfar | hfar
  · exact hne hfar
  · exact not_plain_of_terminal hx hfar
  · exact hstart (hfar ▸ plain_of_inner hplain hinner)

theorem back (h : w.Searching rail edges entered (node :: trail) s)
    (hnone : ∀ e ∈ edges, e.touches node = false) : w.Searching rail edges entered trail s := by
  obtain ⟨gates, hE, hN⟩ := h
  exact ⟨gates, hE.back hnone,
    { hN with current := fun b hb => hN.current b (List.mem_cons_of_mem node hb) }⟩

theorem current_turned (hE : w.Explored rail.node gates edges entered (node :: trail))
    (hN : w.Noted rail gates edges (node :: trail) s) (far : Node) :
    ∀ b ∈ node :: trail, b = rail.node ∨
      ∃ f hop, (w.turned rail s ⟨node, e, far⟩).hop = some (f, hop) ∧ f ∈ gates ∧ w.Inner f b := by
  intro b hb
  by_cases hnode : node = rail.node
  · subst hnode
    rw [hE.trail_eq] at hb
    exact Or.inl (List.mem_singleton.mp hb)
  · rw [turned, if_neg hnode]
    exact hN.current b hb

theorem noted_quiet (hE : w.Explored rail.node gates edges entered (node :: trail))
    (hN : w.Noted rail gates edges (node :: trail) s) (hstart : ¬w.Plain rail.node) (he : e ∈ edges)
    (ht : e.touches node = true)
    (hfar : e.farEnd node = rail.node ∨ w.Plain (e.farEnd node) ∨ node = rail.node)
    {s' : RailSearch} (hfound : s'.found = s.found) {trail' : List Node}
    (hcurrent : ∀ b ∈ trail', b = rail.node ∨
      ∃ f hop, s'.hop = some (f, hop) ∧ f ∈ gates ∧ w.Inner f b) :
    w.Noted rail gates (edges.erase e) trail' s' where
  current := hcurrent
  count := hN.count_erase he fun f hf x => by
    rw [if_neg (not_leads hE hstart ht hfar hf), RailSearch.met, hfound, RailSearch.met,
      Nat.add_zero]
  known := fun f r hr => hN.known f r (hfound ▸ hr)

theorem noted_behind (hE : w.Explored rail.node gates edges entered (node :: trail))
    (hN : w.Noted rail gates edges (node :: trail) s) (he : e ∈ edges) (ht : e.touches node = true)
    (hnode : node ≠ rail.node) (hfar : e.farEnd node ≠ rail.node) {hop : Switch}
    (hhop : s.hop = some (f, hop)) (hx : w.terminals[e.farEnd node]? = some x) :
    w.Noted rail gates (edges.erase e) (node :: trail) (s.note rail.id f hop x) := by
  obtain ⟨g, hop', hg, hgate, hinner⟩ := (hN.current node List.mem_cons_self).resolve_left hnode
  cases hhop.symm.trans hg
  refine ⟨hN.current, hN.count_erase he fun g hg y => ?_, fun g r hr => ?_⟩
  · have hiff := leads_iff (x := y) (f := g) (hE.plain node (hE.trail_sub List.mem_cons_self)) ht
    rw [RailSearch.met_note]
    by_cases hfg : f = g
    · subst hfg
      have hiff : w.leads rail.node f y e = true ↔ x = y := by
        rw [hiff, hx, Option.some.injEq]
        exact ⟨fun h => h.2.2, fun h => ⟨hinner, hfar, h⟩⟩
      simp only [if_true, List.count_append, List.count_singleton, beq_iff_eq, hiff]
    · have hno : ¬w.leads rail.node g y e = true := fun hleads => by
        have hback := inner_symm (hE.gate g hg).2.1 (hiff.mp hleads).1
        exact hfg (hE.apart f hgate g hg (hinner.trans hback))
      rw [if_neg hfg, if_neg hno, Nat.add_zero]
  · rcases RailSearch.found_note hr with ⟨-, hold⟩ | ⟨rfl, hattachments, hrail⟩
    · exact hN.known g r hold
    · refine ⟨?_, by simp [hattachments], Or.inl hgate⟩
      rcases hrail with hrail | ⟨r', hr', hrail⟩
      · exact hrail
      · exact hrail.trans (hN.known g r' hr').1

theorem noted_beside (hE : w.Explored rail.node gates edges entered (rail.node :: trail))
    (hN : w.Noted rail gates edges (rail.node :: trail) s) (hstart : ¬w.Plain rail.node)
    (he : e ∈ edges) (ht : e.touches rail.node = true) (hfar : e.farEnd rail.node ≠ rail.node)
    {hop : Switch} (hswitch : w.switchOf e = some hop)
    (hx : w.terminals[e.farEnd rail.node]? = some x) (hfound : s'.found = s.found) :
    w.Noted rail gates (edges.erase e) (rail.node :: trail)
      (s'.note rail.id (e.farEnd rail.node) hop x) := by
  have hapart : ∀ g ∈ gates, e.farEnd rail.node ≠ g := fun g hg hfg =>
    not_plain_of_terminal hx (hfg ▸ (hE.gate g hg).2.1)
  have hmet : s'.met (e.farEnd rail.node) = s.met (e.farEnd rail.node) := by
    rw [RailSearch.met, hfound, RailSearch.met]
  refine ⟨fun b hb => ?_, hN.count_erase he fun g hg y => ?_, fun g r hr => ?_⟩
  · rw [hE.trail_eq] at hb
    exact Or.inl (List.mem_singleton.mp hb)
  · rw [RailSearch.met_note, if_neg (hapart g hg),
      if_neg (not_leads hE hstart ht (Or.inr (Or.inr rfl)) hg), Nat.add_zero, RailSearch.met,
      hfound, RailSearch.met]
  · rcases RailSearch.found_note hr with ⟨-, hold⟩ | ⟨rfl, hattachments, hrail⟩
    · exact hN.known g r (hfound ▸ hold)
    · have hjoined : w.Joined rail.node (e.farEnd rail.node) :=
        ⟨e, hE.edges_sub he, by simp [hswitch], Edge.between_farEnd ht⟩
      refine ⟨?_, by simp [hattachments], Or.inr ⟨hfar, hjoined, x, hx, fun y hy => ?_⟩⟩
      · rcases hrail with hrail | ⟨r', hr', hrail⟩
        · exact hrail
        · exact hrail.trans (hN.known _ r' (hfound ▸ hr')).1
      · rw [hattachments, hmet] at hy
        rcases List.mem_append.mp hy with hy | hy
        · cases hr' : s.found[e.farEnd rail.node]? with
          | none => simp [RailSearch.met, hr'] at hy
          | some r' =>
            obtain ⟨-, -, hgate | ⟨-, -, z, hz, hall⟩⟩ := hN.known _ r' hr'
            · exact absurd rfl (hapart _ hgate)
            · cases hx.symm.trans hz
              exact hall y (by simpa [RailSearch.met, hr'] using hy)
        · exact List.mem_singleton.mp hy

theorem pass (h : w.Searching rail edges entered (node :: trail) s) (hstart : ¬w.Plain rail.node)
    (he : e ∈ edges) (ht : e.touches node = true)
    (hin : (w.railVisit rail s ⟨node, e, e.farEnd node⟩).1 = .onward → e.farEnd node ∈ entered) :
    w.Searching rail (edges.erase e) entered (node :: trail)
      (w.railVisit rail s ⟨node, e, e.farEnd node⟩).2 := by
  obtain ⟨gates, hE, hN⟩ := h
  have hturned := current_turned (e := e) hE hN (e.farEnd node)
  refine ⟨gates, ?_⟩
  rcases w.railVisit_cases rail s ⟨node, e, e.farEnd node⟩ with ⟨hfar, hv⟩ |
    ⟨hfar, ⟨hhop, hv⟩ | ⟨f, hop, hhop, ⟨hplain, hv⟩ | ⟨x, hx, hv⟩⟩⟩ <;> rw [hv] at hin ⊢
  · exact ⟨hE.pass ht fun hplain => absurd (hfar ▸ hplain) hstart,
      noted_quiet hE hN hstart he ht (Or.inl hfar) rfl hN.current⟩
  · have hnode : node = rail.node := by
      by_contra hnode
      obtain ⟨f, hop, hsome, -⟩ := (hturned node List.mem_cons_self).resolve_left hnode
      rw [hhop] at hsome
      cases hsome
    have hnone : w.switchOf e = none := by simpa [turned, hnode] using hhop
    refine ⟨hE.pass ht fun _ hsome => ?_,
      noted_quiet hE hN hstart he ht (Or.inr (Or.inr hnode)) (w.found_turned rail s _) hturned⟩
    have hsome := hsome hnode
    rw [hnone] at hsome
    cases hsome
  · exact ⟨hE.pass ht fun _ _ => hin rfl,
      noted_quiet hE hN hstart he ht (Or.inr (Or.inl hplain)) (w.found_turned rail s _) hturned⟩
  · refine ⟨hE.pass ht fun hplain => absurd hplain (not_plain_of_terminal hx), ?_⟩
    by_cases hnode : node = rail.node
    · subst hnode
      have hswitch : w.switchOf e = some hop ∧ e.farEnd rail.node = f := by
        simpa [turned, Option.map_eq_some_iff] using hhop
      obtain ⟨hswitch, rfl⟩ := hswitch
      exact noted_beside hE hN hstart he ht hfar hswitch hx (w.found_turned rail s _)
    · have hsame : w.turned rail s ⟨node, e, e.farEnd node⟩ = s := by rw [turned, if_neg hnode]
      rw [hsame] at hhop ⊢
      exact noted_behind hE hN he ht hnode hfar hhop hx

theorem done (hE : w.Explored rail.node gates edges entered [rail.node]) :
    ∀ b ∈ entered, b ≠ rail.node → ∀ e ∈ edges, e.touches b = false :=
  fun b hb hne => (hE.left b hb).resolve_left (by simpa using hne)

/-- The notes, when a switch at the start leads to a node that is entered: it is a new gate,
and nothing behind it was met before. -/
theorem noted_gate (hE : w.Explored rail.node gates edges entered [rail.node])
    (hN : w.Noted rail gates edges [rail.node] s) (hstart : ¬w.Plain rail.node) (he : e ∈ edges)
    (ht : e.touches rail.node = true) (hplain : w.Plain (e.farEnd rail.node))
    (hnew : e.farEnd rail.node ∉ entered) {hop : Switch}
    (hhop : s'.hop = some (e.farEnd rail.node, hop)) (hfound : s'.found = s.found) :
    w.Noted rail (e.farEnd rail.node :: gates) (edges.erase e) [e.farEnd rail.node, rail.node]
      s' := by
  have hold : w.Noted rail gates (edges.erase e) [rail.node] s' :=
    noted_quiet hE hN hstart he ht (Or.inr (Or.inr rfl)) hfound (by simp)
  refine ⟨?_, List.forall_mem_cons.mpr ⟨fun x => ?_, hold.count⟩, fun f r hr => ?_⟩
  · simp only [List.mem_cons, List.not_mem_nil, or_false, forall_eq_or_imp, forall_eq, true_or,
      and_true]
    exact Or.inr ⟨_, hop, hhop, Or.inl rfl, .refl⟩
  · have hmet : s'.met (e.farEnd rail.node) = [] := by
      rw [RailSearch.met, hfound]
      cases hr : s.found[e.farEnd rail.node]? with
      | none => rfl
      | some r =>
        obtain ⟨-, -, hgate | ⟨-, -, y, hy, -⟩⟩ := hN.known _ r hr
        · exact absurd (hE.gate _ hgate).1 hnew
        · exact absurd hplain (not_plain_of_terminal hy)
    rw [hmet, List.count_nil, Nat.zero_add]
    refine hE.countP_erase_eq ht fun g hg b hb => Bool.eq_false_iff.mpr fun htb => ?_
    obtain ⟨a, c, hinner, hac, hc, hx⟩ := leads_eq_true_iff.mp hg
    rcases hac.touches_iff.mp htb with rfl | rfl
    · have hb' := plain_of_inner hplain hinner
      exact hnew (hE.swept hstart (done hE) hb hb' (inner_symm hplain hinner))
    · exact not_plain_of_terminal hx ((hE.plain _ hb).resolve_left hc)
  · obtain ⟨hrail, hne, hcases⟩ := hold.known f r hr
    exact ⟨hrail, hne, hcases.imp_left (List.mem_cons_of_mem _)⟩

theorem enter (h : w.Searching rail edges entered (node :: trail) s) (hstart : ¬w.Plain rail.node)
    (he : e ∈ edges) (ht : e.touches node = true)
    (honward : (w.railVisit rail s ⟨node, e, e.farEnd node⟩).1 = .onward)
    (hnew : e.farEnd node ∉ entered) :
    w.Searching rail (edges.erase e) (e.farEnd node :: entered) (e.farEnd node :: node :: trail)
      (w.railVisit rail s ⟨node, e, e.farEnd node⟩).2 := by
  obtain ⟨gates, hE, hN⟩ := h
  rcases w.railVisit_cases rail s ⟨node, e, e.farEnd node⟩ with ⟨-, hv⟩ |
    ⟨-, ⟨-, hv⟩ | ⟨f, hop, hhop, ⟨hplain, hv⟩ | ⟨x, -, hv⟩⟩⟩ <;> rw [hv] at honward ⊢
  · cases honward
  · cases honward
  · have hplain : w.Plain (e.farEnd node) := hplain
    by_cases hnode : node = rail.node
    · subst hnode
      have hswitch : w.switchOf e = some hop ∧ e.farEnd rail.node = f := by
        simpa [turned, Option.map_eq_some_iff] using hhop
      obtain ⟨hswitch, rfl⟩ := hswitch
      obtain rfl := hE.trail_eq
      have hjoined : w.Joined rail.node (e.farEnd rail.node) :=
        ⟨e, hE.edges_sub he, by simp [hswitch], Edge.between_farEnd ht⟩
      have hout : ∀ g ∈ gates, ¬w.Inner g (e.farEnd rail.node) := fun g hg hinner =>
        hnew (hE.swept hstart (done hE) (hE.gate g hg).1 (hE.gate g hg).2.1 hinner)
      refine ⟨e.farEnd rail.node :: gates, ?_,
        noted_gate hE hN hstart he ht hplain hnew hhop (w.found_turned rail s _)⟩
      refine hE.enter ht hplain hstart hnew (List.subset_cons_self _ _) (fun g hg => ?_)
        (fun g hg g' hg' hinner => ?_) ⟨_, List.mem_cons_self, .refl⟩
      · rcases List.mem_cons.mp hg with rfl | hg
        · exact Or.inr ⟨rfl, hjoined⟩
        · exact Or.inl hg
      · rcases List.mem_cons.mp hg with rfl | hg <;> rcases List.mem_cons.mp hg' with rfl | hg'
        · rfl
        · exact absurd (inner_symm hplain hinner) (hout g' hg')
        · exact absurd hinner (hout g hg)
        · exact hE.apart g hg g' hg' hinner
    · have hsame : w.turned rail s ⟨node, e, e.farEnd node⟩ = s := by rw [turned, if_neg hnode]
      rw [hsame]
      obtain ⟨g, hop', hg, hgate, hinner⟩ := (hN.current node List.mem_cons_self).resolve_left hnode
      have hfar : w.Inner g (e.farEnd node) :=
        hinner.tail ⟨⟨e, hE.edges_sub he, Edge.between_farEnd ht⟩, hplain⟩
      refine ⟨gates, hE.enter ht hplain hstart hnew (List.Subset.refl _) (fun _ hf => Or.inl hf)
        hE.apart ⟨g, hgate, hfar⟩, noted_quiet hE hN hstart he ht (Or.inr (Or.inl hplain)) rfl ?_⟩
      exact List.forall_mem_cons.mpr ⟨Or.inr ⟨g, hop', hg, hgate, hfar⟩, hN.current⟩
  · cases honward

end Searching

/-- A search ends with all that lies behind its gates. -/
theorem searching_railSwitches (hstart : ¬w.Plain rail.node) :
    ∃ left known s, s.found = w.railSwitches rail ∧ w.Searching rail left known [] s := by
  obtain ⟨left, known, h⟩ : ∃ left known, w.Searching rail left known []
      (walk (w.railVisit rail) w.edgeList [rail.node] [rail.node] {}).2 :=
    walk_keeps (p := w.Searching rail)
      (w.railVisit_ne_stop rail) Searching.back (fun h he ht hin => h.pass hstart he ht hin)
      (fun h he ht honward hnew => h.enter hstart he ht honward hnew)
      w.edgeList [rail.node] [rail.node] {} ⟨[], .initial w rail.node, .initial w rail⟩
  exact ⟨left, known, _, (w.railSwitches_eq rail).symm, h⟩

/-- A found switch is at the busbar section. Behind a node without terminal, a side is found
as often as edges lead to it. -/
theorem railSwitches_spec (hstart : ¬w.Plain rail.node) {r : RailSwitch}
    (h : (w.railSwitches rail)[f]? = some r) :
    r.rail = rail.id ∧ r.attachments ≠ [] ∧ f ≠ rail.node ∧ w.Joined rail.node f ∧
      (w.Plain f → ∀ x, r.attachments.count x = w.edgeList.countP (w.leads rail.node f x)) ∧
      ∀ x, w.terminals[f]? = some x → ∀ y ∈ r.attachments, y = x := by
  obtain ⟨left, known, s, hfound, gates, hE, hN⟩ := searching_railSwitches (w := w) hstart
  rw [← hfound] at h
  obtain ⟨hrail, hne, hcases⟩ := hN.known f r h
  rcases hcases with hgate | ⟨hfar, hjoined, x, hx, hall⟩
  · obtain ⟨hin, hplain, hjoined⟩ := hE.gate f hgate
    refine ⟨hrail, hne, fun he => hstart (he ▸ hplain), hjoined, fun _ x => ?_,
      fun x hx => absurd hplain (not_plain_of_terminal hx)⟩
    have hcount := hN.count f hgate x
    rwa [hE.countP_leads hstart hgate, Nat.add_zero, RailSearch.met, h, Option.map_some,
      Option.getD_some] at hcount
  · refine ⟨hrail, hne, hfar, hjoined, fun hplain => absurd hplain (not_plain_of_terminal hx),
      fun y hy => ?_⟩
    cases hx.symm.trans hy
    exact hall

/-- A switch at the busbar section with a terminal behind it is found, by one of the nodes
behind it. -/
theorem exists_railSwitch (hstart : ¬w.Plain rail.node) (hjoined : w.Joined rail.node b)
    (hb : w.Plain b) (he : e ∈ w.edgeList) (hleads : w.Leads rail.node b x e) :
    ∃ f r, (w.railSwitches rail)[f]? = some r ∧ w.Plain f ∧ w.Inner b f := by
  obtain ⟨left, known, s, hfound, gates, hE, hN⟩ := searching_railSwitches (w := w) hstart
  have hin : b ∈ known := by
    obtain ⟨g, hg, hswitch, hends⟩ := hjoined
    refine (hE.closed _ hE.start_mem g hg b hends hb fun _ => hswitch).resolve_left fun hin => ?_
    have hno := (hE.left _ hE.start_mem).resolve_left List.not_mem_nil g hin
    rw [hends.touches_iff.mpr (Or.inl rfl)] at hno
    cases hno
  obtain ⟨f, hf, hinner⟩ := (hE.housed b hin).resolve_left fun he => hstart (he ▸ hb)
  have hplain := (hE.gate f hf).2.1
  have hcount := hN.count f hf x
  rw [hE.countP_leads hstart hf] at hcount
  have hpos : 0 < w.edgeList.countP (w.leads rail.node f x) := by
    obtain ⟨a, c, hba, hac, hc, hx⟩ := hleads
    exact List.countP_pos_iff.mpr
      ⟨e, he, leads_eq_true_iff.mpr ⟨a, c, hinner.trans hba, hac, hc, hx⟩⟩
  have hmet : (s.met f).count x ≠ 0 := by omega
  cases hr : s.found[f]? with
  | none => simp [RailSearch.met, hr] at hmet
  | some r => exact ⟨f, r, hfound ▸ hr, hplain, inner_symm hplain hinner⟩

end Wiring

end Switchyard
