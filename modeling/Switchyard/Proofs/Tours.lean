import Mathlib.Logic.Relation
import Switchyard.Proofs.Shrinking

namespace Switchyard

/-- An edge of the list joins the nodes, and the second one may be entered. -/
def Passage (es : List Edge) (enter : Node → Prop) (a b : Node) : Prop :=
  (∃ e ∈ es, e.Between a b) ∧ enter b

/-- The node is reached through nodes that may be entered. -/
abbrev Reaches (es : List Edge) (enter : Node → Prop) : Node → Node → Prop :=
  Relation.ReflTransGen (Passage es enter)

theorem Hop.Along.between {h : Hop} (ha : h.Along) : h.edge.Between h.source h.target :=
  ha.2 ▸ Edge.between_farEnd ha.1

theorem Edge.Between.eq_or {e : Edge} {a b c d : Node} (h : e.Between a b) (h' : e.Between c d) :
    a = c ∧ b = d ∨ a = d ∧ b = c := by
  unfold Between at h h'
  grind

/-- The hops of a walk that enters nodes as told: it starts from each node that is
reached, and goes along each edge that is there. -/
structure Tour (es : List Edge) (enter : Node → Prop) (start : Node) (hops : List Hop) : Prop where
  along : ∀ h ∈ hops, h.edge ∈ es ∧ h.Along
  reached : ∀ h ∈ hops, Reaches es enter start h.source
  covers : ∀ a, Reaches es enter start a → ∀ e ∈ es, e.touches a = true → ∃ h ∈ hops, h.edge = e
  followed : ∀ h ∈ hops, h.source = start ∨ ∃ g ∈ hops, g.target = h.source

/-- The walk goes on from the first node to the second one, along an edge of the list. -/
def Goes (es : List Edge) (verdict : Hop → Verdict) (a b : Node) : Prop :=
  ∃ e ∈ es, e.Between a b ∧ verdict ⟨a, e, b⟩ = .onward

/-- How far a walk that never stopped has come, if it answers by the hop alone: `edges` are
still to be offered, `trail` is to be walked back. -/
structure Underway (es : List Edge) (verdict : Hop → Verdict) (start : Node) (edges : List Edge)
    (entered trail : List Node) (hops : List Hop) : Prop where
  start_mem : start ∈ entered
  trail_sub : trail ⊆ entered
  split : (hops.map (·.edge) ++ edges).Perm es
  along : ∀ h ∈ hops, h.Along
  going : ∀ h ∈ hops, verdict h ≠ .stop
  ends : ∀ h ∈ hops, h.source ∈ entered ∧ (verdict h = .onward → h.target ∈ entered)
  left : ∀ a ∈ entered, a ∈ trail ∨ ∀ e ∈ edges, e.touches a = false
  reached : ∀ a ∈ entered, Relation.ReflTransGen (Goes es verdict) start a
  followed : ∀ a ∈ entered, a = start ∨ ∃ g ∈ hops, g.target = a

namespace Underway

variable {es edges : List Edge} {verdict : Hop → Verdict} {start node : Node}
  {entered trail : List Node} {hops : List Hop} {e : Edge}

theorem initial (es : List Edge) (verdict : Hop → Verdict) (start : Node) :
    Underway es verdict start es [start] [start] [] where
  start_mem := List.mem_singleton_self start
  trail_sub := List.Subset.refl _
  split := List.Perm.refl _
  along := by simp
  going := by simp
  ends := by simp
  left := fun a ha => Or.inl ha
  reached := fun a ha => by
    rw [List.mem_singleton.mp ha]
  followed := fun a ha => Or.inl (List.mem_singleton.mp ha)

theorem edges_sub (h : Underway es verdict start edges entered trail hops) (he : e ∈ edges) :
    e ∈ es :=
  h.split.subset (List.mem_append_right _ he)

theorem edge_mem (h : Underway es verdict start edges entered trail hops) {g : Hop}
    (hg : g ∈ hops) : g.edge ∈ es :=
  h.split.subset (List.mem_append_left _ (List.mem_map_of_mem hg))

theorem back (h : Underway es verdict start edges entered (node :: trail) hops)
    (hnone : ∀ e ∈ edges, e.touches node = false) :
    Underway es verdict start edges entered trail hops :=
  { h with
    trail_sub := fun a ha => h.trail_sub (List.mem_cons_of_mem node ha)
    left := fun a ha => by
      rcases h.left a ha with hin | hno
      · rcases List.mem_cons.mp hin with rfl | hin
        · exact Or.inr hnone
        · exact Or.inl hin
      · exact Or.inr hno }

/-- An edge is offered from the top of the trail. Its far end may be entered. -/
theorem offer (h : Underway es verdict start edges entered (node :: trail) hops) (he : e ∈ edges)
    (ht : e.touches node = true) (hgo : verdict ⟨node, e, e.farEnd node⟩ ≠ .stop)
    {entered' trail' : List Node} (hsub : entered ⊆ entered') (htrail : node :: trail ⊆ trail')
    (hsub' : trail' ⊆ entered')
    (hnew : ∀ a ∈ entered', a ∈ entered ∨
      a ∈ trail' ∧ a = e.farEnd node ∧ verdict ⟨node, e, e.farEnd node⟩ = .onward)
    (hin : verdict ⟨node, e, e.farEnd node⟩ = .onward → e.farEnd node ∈ entered') :
    Underway es verdict start (edges.erase e) entered' trail'
      (hops ++ [⟨node, e, e.farEnd node⟩]) where
  start_mem := hsub h.start_mem
  trail_sub := hsub'
  split := by
    rw [List.map_append, List.append_assoc]
    exact ((List.perm_cons_erase he).symm.append_left _).trans h.split
  along := List.forall_mem_append.mpr ⟨h.along, by simpa using ⟨ht, rfl⟩⟩
  going := List.forall_mem_append.mpr ⟨h.going, by simpa using hgo⟩
  ends := List.forall_mem_append.mpr
    ⟨fun g hg => ⟨hsub (h.ends g hg).1, fun hg' => hsub ((h.ends g hg).2 hg')⟩,
      by simpa using ⟨hsub' (htrail List.mem_cons_self), hin⟩⟩
  left := fun a ha => by
    rcases hnew a ha with hold | ⟨htop, -⟩
    · rcases h.left a hold with hon | hno
      · exact Or.inl (htrail hon)
      · exact Or.inr fun f hf => hno f (List.mem_of_mem_erase hf)
    · exact Or.inl htop
  reached := fun a ha => by
    rcases hnew a ha with hold | ⟨-, rfl, hmay⟩
    · exact h.reached a hold
    · have hnode := h.reached node (h.trail_sub List.mem_cons_self)
      exact hnode.tail ⟨e, h.edges_sub he, Edge.between_farEnd ht, hmay⟩
  followed := fun a ha => by
    rcases hnew a ha with hold | ⟨-, rfl, -⟩
    · rcases h.followed a hold with rfl | ⟨g, hg, rfl⟩
      · exact Or.inl rfl
      · exact Or.inr ⟨g, List.mem_append_left _ hg, rfl⟩
    · exact Or.inr ⟨⟨node, e, e.farEnd node⟩, by simp, rfl⟩

theorem pass (h : Underway es verdict start edges entered (node :: trail) hops) (he : e ∈ edges)
    (ht : e.touches node = true) (hgo : verdict ⟨node, e, e.farEnd node⟩ ≠ .stop)
    (hin : verdict ⟨node, e, e.farEnd node⟩ = .onward → e.farEnd node ∈ entered) :
    Underway es verdict start (edges.erase e) entered (node :: trail)
      (hops ++ [⟨node, e, e.farEnd node⟩]) :=
  h.offer he ht hgo (List.Subset.refl _) (List.Subset.refl _) h.trail_sub (fun _ ha => Or.inl ha)
    hin

theorem advance (h : Underway es verdict start edges entered (node :: trail) hops) (he : e ∈ edges)
    (ht : e.touches node = true) (hmay : verdict ⟨node, e, e.farEnd node⟩ = .onward) :
    Underway es verdict start (edges.erase e) (e.farEnd node :: entered)
      (e.farEnd node :: node :: trail) (hops ++ [⟨node, e, e.farEnd node⟩]) := by
  refine h.offer he ht (by simp [hmay]) (List.subset_cons_self _ _) (List.subset_cons_self _ _)
    (List.cons_subset_cons _ h.trail_sub) (fun a ha => ?_) fun _ => List.mem_cons_self
  rcases List.mem_cons.mp ha with rfl | hold
  · exact Or.inr ⟨List.mem_cons_self, rfl, hmay⟩
  · exact Or.inl hold

/-- A walk that is back at its start has offered every edge at the nodes that it entered. -/
theorem offered (h : Underway es verdict start edges entered [] hops) {a : Node} (ha : a ∈ entered)
    (he : e ∈ es) (ht : e.touches a = true) : ∃ g ∈ hops, g.edge = e := by
  rcases List.mem_append.mp (h.split.mem_iff.mpr he) with hdone | hin
  · exact List.mem_map.mp hdone
  · have hno := (h.left a ha).resolve_left List.not_mem_nil e hin
    rw [ht] at hno
    cases hno

/-- A walk that is back at its start has entered all it could. -/
theorem mem_entered (h : Underway es verdict start edges entered [] hops) {a : Node}
    (ha : Relation.ReflTransGen (Goes es verdict) start a) : a ∈ entered := by
  induction ha with
  | refl => exact h.start_mem
  | @tail a b _ hab ih =>
    obtain ⟨e, he, hends, hb⟩ := hab
    obtain ⟨⟨source, e, target⟩, hg, rfl⟩ := h.offered ih he (hends.touches_iff.mpr (Or.inl rfl))
    obtain ⟨hsource, htarget⟩ := h.ends _ hg
    rcases (h.along _ hg).between.eq_or hends with ⟨rfl, rfl⟩ | ⟨rfl, -⟩
    · exact htarget hb
    · exact hsource

end Underway

section Walks

variable {σ : Type} {visit : σ → Hop → Verdict × σ} {verdict : Hop → Verdict}

/-- A walk that answers by the hop alone is a fold over the hops it offers. It is back at its
start, or stopped at the last of them. -/
theorem walk_underway (hvisit : ∀ s h, (visit s h).1 = verdict h) (es : List Edge) (start : Node)
    (state : σ) :
    (∃ hops edges entered, Underway es verdict start edges entered [] hops ∧
      walk visit es [start] [start] state =
        (true, hops.foldl (fun s h => (visit s h).2) state)) ∨
      ∃ hops h, (∀ g ∈ hops, verdict g ≠ .stop) ∧ verdict h = .stop ∧
        walk visit es [start] [start] state =
          (false, (hops ++ [h]).foldl (fun s h => (visit s h).2) state) := by
  have hanswer : ∀ {s h answer next}, visit s h = (answer, next) → verdict h = answer := by
    intro s h answer next hv
    rw [← hvisit s h, hv]
  have hfold : ∀ {hops : List Hop} {h answer next},
      visit (hops.foldl (fun s h => (visit s h).2) state) h = (answer, next) →
      next = (hops ++ [h]).foldl (fun s h => (visit s h).2) state := by
    intro hops h answer next hv
    rw [List.foldl_append, List.foldl_cons, List.foldl_nil, hv]
  refine walk_ends
    (p := fun edges entered trail s => ∃ hops, Underway es verdict start edges entered trail hops ∧
      s = hops.foldl (fun s h => (visit s h).2) state)
    (q := fun r => (∃ hops edges entered, Underway es verdict start edges entered [] hops ∧
        r = (true, hops.foldl (fun s h => (visit s h).2) state)) ∨
      ∃ hops h, (∀ g ∈ hops, verdict g ≠ .stop) ∧ verdict h = .stop ∧
        r = (false, (hops ++ [h]).foldl (fun s h => (visit s h).2) state))
    ?_ ?_ ?_ ?_ ?_ es [start] [start] state ⟨[], .initial es verdict start, rfl⟩
  · rintro edges entered s ⟨hops, h, rfl⟩
    exact Or.inl ⟨hops, edges, entered, h, rfl⟩
  · rintro edges entered node rest s ⟨hops, h, rfl⟩ hnone
    exact ⟨hops, h.back hnone, rfl⟩
  · rintro edges entered node rest s e next ⟨hops, h, rfl⟩ he ht hv
    exact Or.inr ⟨hops, _, h.going, hanswer hv, congrArg (Prod.mk false) (hfold hv)⟩
  · rintro edges entered node rest s e answer next ⟨hops, h, rfl⟩ he ht hv hgo hin
    rw [← hanswer hv] at hgo hin
    exact ⟨_, h.pass he ht hgo hin, hfold hv⟩
  · rintro edges entered node rest s e next ⟨hops, h, rfl⟩ he ht hv hin
    exact ⟨_, h.advance he ht (hanswer hv), hfold hv⟩

/-- Nodes that may be entered are the far ends that the walk goes on from. -/
theorem goes_eq_passage (es : List Edge) (enter : Node → Prop) [DecidablePred enter] :
    Goes es (fun h => if enter h.target then .onward else .leave) = Passage es enter := by
  funext a b
  by_cases hb : enter b
  · simp [Goes, Passage, hb]
  · simp [Goes, Passage, hb]

/-- A walk that never stops is a fold over the hops of a tour. -/
theorem walk_tour (visit : σ → Hop → Verdict × σ) (enter : Node → Prop) [DecidablePred enter]
    (hvisit : ∀ s h, (visit s h).1 = if enter h.target then .onward else .leave)
    (es : List Edge) (start : Node) (state : σ) :
    ∃ hops, Tour es enter start hops ∧
      (walk visit es [start] [start] state).2 = hops.foldl (fun s h => (visit s h).2) state := by
  obtain ⟨hops, edges, entered, h, hwalk⟩ | ⟨hops, h, -, hstop, -⟩ :=
    walk_underway hvisit es start state
  · refine ⟨hops, ⟨fun g hg => ⟨h.edge_mem hg, h.along g hg⟩, fun g hg => ?_,
      fun a ha e he ht => ?_,
      fun g hg => h.followed _ (h.ends g hg).1⟩, by rw [hwalk]⟩
    · rw [Reaches, ← goes_eq_passage]
      exact h.reached _ (h.ends g hg).1
    · rw [Reaches, ← goes_eq_passage] at ha
      exact h.offered (h.mem_entered ha) he ht
  · split at hstop <;> cases hstop

end Walks

end Switchyard
