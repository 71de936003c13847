import Mathlib.Data.List.Perm.Subperm
import Switchyard.Walk

namespace Switchyard

section Steps

variable {σ : Type} {visit : σ → Hop → Verdict × σ} {edges : List Edge} {entered rest : List Node}
  {node : Node} {s next : σ} {e : Edge}

theorem walk_back (hnone : edges.find? (·.touches node) = none) :
    walk visit edges entered (node :: rest) s = walk visit edges entered rest s := by
  rw [walk, hnone]

theorem walk_stop (hfind : edges.find? (·.touches node) = some e)
    (hvisit : visit s ⟨node, e, e.farEnd node⟩ = (.stop, next)) :
    walk visit edges entered (node :: rest) s = (false, next) := by
  rw [walk, hfind]
  dsimp only
  rw [hvisit]

theorem walk_pass {verdict : Verdict} (hfind : edges.find? (·.touches node) = some e)
    (hvisit : visit s ⟨node, e, e.farEnd node⟩ = (verdict, next)) (hgo : verdict ≠ .stop)
    (hin : verdict = .onward → e.farEnd node ∈ entered) :
    walk visit edges entered (node :: rest) s =
      walk visit (edges.erase e) entered (node :: rest) next := by
  rw [walk, hfind]
  dsimp only
  rw [hvisit]
  cases verdict with
  | onward => exact if_pos (hin rfl)
  | leave => rfl
  | stop => exact absurd rfl hgo

theorem walk_enter (hfind : edges.find? (·.touches node) = some e)
    (hvisit : visit s ⟨node, e, e.farEnd node⟩ = (.onward, next))
    (hout : e.farEnd node ∉ entered) :
    walk visit edges entered (node :: rest) s =
      walk visit (edges.erase e) (e.farEnd node :: entered) (e.farEnd node :: node :: rest)
        next := by
  rw [walk, hfind]
  dsimp only
  rw [hvisit]
  exact if_neg hout

end Steps

/-- What the steps of a walk keep tells how it ends: back at its start, or at the edge that
stopped it. Each step offers the first edge at the top of the trail. -/
theorem walk_follows {σ : Type} {visit : σ → Hop → Verdict × σ}
    {p : List Edge → List Node → List Node → σ → Prop} {q : Bool × σ → Prop}
    (done : ∀ {edges entered s}, p edges entered [] s → q (true, s))
    (back : ∀ {edges entered node rest s}, p edges entered (node :: rest) s →
      edges.find? (·.touches node) = none → p edges entered rest s)
    (stop : ∀ {edges entered node rest s e next}, p edges entered (node :: rest) s →
      edges.find? (·.touches node) = some e →
      visit s ⟨node, e, e.farEnd node⟩ = (.stop, next) → q (false, next))
    (pass : ∀ {edges entered node rest s e verdict next}, p edges entered (node :: rest) s →
      edges.find? (·.touches node) = some e →
      visit s ⟨node, e, e.farEnd node⟩ = (verdict, next) → verdict ≠ .stop →
      (verdict = .onward → e.farEnd node ∈ entered) →
      p (edges.erase e) entered (node :: rest) next)
    (enter : ∀ {edges entered node rest s e next}, p edges entered (node :: rest) s →
      edges.find? (·.touches node) = some e →
      visit s ⟨node, e, e.farEnd node⟩ = (.onward, next) → e.farEnd node ∉ entered →
      p (edges.erase e) (e.farEnd node :: entered) (e.farEnd node :: node :: rest) next)
    (edges : List Edge) (entered trail : List Node) (s : σ) (h : p edges entered trail s) :
    q (walk visit edges entered trail s) := by
  induction edges, entered, trail, s using walk.induct visit with
  | case1 edges entered s =>
    rw [walk]
    exact done h
  | case2 edges entered s node rest hnone ih =>
    rw [walk_back hnone]
    exact ih (back h hnone)
  | case3 edges entered s node rest e hfind target next hvisit =>
    rw [walk_stop hfind hvisit]
    exact stop h hfind hvisit
  | case4 edges entered s node rest e hfind target next hvisit ih =>
    rw [walk_pass hfind hvisit Verdict.noConfusion Verdict.noConfusion]
    exact ih (pass h hfind hvisit Verdict.noConfusion Verdict.noConfusion)
  | case5 edges entered s node rest e hfind target next hvisit hin ih =>
    rw [walk_pass hfind hvisit Verdict.noConfusion fun _ => hin]
    exact ih (pass h hfind hvisit Verdict.noConfusion fun _ => hin)
  | case6 edges entered s node rest e hfind target next hvisit hout ih =>
    rw [walk_enter hfind hvisit hout]
    exact ih (enter h hfind hvisit hout)

/-- How a walk ends, by steps for which it does not matter which edge is the first. -/
theorem walk_ends {σ : Type} {visit : σ → Hop → Verdict × σ}
    {p : List Edge → List Node → List Node → σ → Prop} {q : Bool × σ → Prop}
    (done : ∀ {edges entered s}, p edges entered [] s → q (true, s))
    (back : ∀ {edges entered node rest s}, p edges entered (node :: rest) s →
      (∀ e ∈ edges, e.touches node = false) → p edges entered rest s)
    (stop : ∀ {edges entered node rest s e next}, p edges entered (node :: rest) s → e ∈ edges →
      e.touches node = true → visit s ⟨node, e, e.farEnd node⟩ = (.stop, next) → q (false, next))
    (pass : ∀ {edges entered node rest s e verdict next}, p edges entered (node :: rest) s →
      e ∈ edges → e.touches node = true → visit s ⟨node, e, e.farEnd node⟩ = (verdict, next) →
      verdict ≠ .stop → (verdict = .onward → e.farEnd node ∈ entered) →
      p (edges.erase e) entered (node :: rest) next)
    (enter : ∀ {edges entered node rest s e next}, p edges entered (node :: rest) s → e ∈ edges →
      e.touches node = true → visit s ⟨node, e, e.farEnd node⟩ = (.onward, next) →
      e.farEnd node ∉ entered →
      p (edges.erase e) (e.farEnd node :: entered) (e.farEnd node :: node :: rest) next)
    (edges : List Edge) (entered trail : List Node) (s : σ) (h : p edges entered trail s) :
    q (walk visit edges entered trail s) := by
  have htouches : ∀ {edges : List Edge} {node : Node} {e : Edge},
      edges.find? (·.touches node) = some e → e.touches node = true := fun hfind => by
    simpa using List.find?_some hfind
  refine walk_follows (p := p) (q := q) done ?_ ?_ ?_ ?_ edges entered trail s h
  · exact fun h hnone => back h fun e he => by simpa using List.find?_eq_none.mp hnone e he
  · exact fun h hfind => stop h (List.mem_of_find?_eq_some hfind) (htouches hfind)
  · exact fun h hfind => pass h (List.mem_of_find?_eq_some hfind) (htouches hfind)
  · exact fun h hfind => enter h (List.mem_of_find?_eq_some hfind) (htouches hfind)

/-- What each offer of an edge keeps, as the edge leaves the list, holds at the
end of a walk. -/
theorem walk_induction {σ : Type} (visit : σ → Hop → Verdict × σ) {p : List Edge → σ → Prop}
    (hstep : ∀ edges state node e, e ∈ edges → e.touches node = true → p edges state →
      p (edges.erase e) (visit state ⟨node, e, e.farEnd node⟩).2)
    (edges : List Edge) (entered trail : List Node) (state : σ) (h : p edges state) :
    ∃ left, p left (walk visit edges entered trail state).2 := by
  have hoffer : ∀ {edges state node e verdict next}, p edges state → e ∈ edges →
      e.touches node = true → visit state ⟨node, e, e.farEnd node⟩ = (verdict, next) →
      p (edges.erase e) next := by
    intro edges state node e verdict next h he ht hvisit
    have hs := hstep edges state node e he ht h
    rwa [hvisit] at hs
  refine walk_ends (p := fun edges _ _ s => p edges s) (q := fun r => ∃ left, p left r.2)
    ?_ ?_ ?_ ?_ ?_ edges entered trail state h
  · exact fun h => ⟨_, h⟩
  · exact fun h _ => h
  · exact fun h he ht hvisit => ⟨_, hoffer h he ht hvisit⟩
  · exact fun h he ht hvisit _ _ => hoffer h he ht hvisit
  · exact fun h he ht hvisit _ => hoffer h he ht hvisit

/-- A hop that goes along its edge. -/
def Hop.Along (h : Hop) : Prop :=
  h.edge.touches h.source = true ∧ h.target = h.edge.farEnd h.source

variable [Numbering]

/-- What each hop keeps holds of the hops that a walk offers. They go along the edges of
the wiring, each edge once at most. -/
theorem Wiring.traverse_induction {σ : Type} (w : Wiring) (start : Node)
    (visit : σ → Hop → Verdict × σ) {p : List Hop → σ → Prop} {state : σ} (h : p [] state)
    (hstep : ∀ hops s hop, p hops s → p (hop :: hops) (visit s hop).2) :
    ∃ hops, (hops.map (·.edge)).Subperm w.edgeList ∧ (∀ h ∈ hops, h.Along) ∧
      p hops (w.traverse start visit state).2 := by
  obtain ⟨left, hops, hperm, halong, hend⟩ := walk_induction visit
    (p := fun edges s => ∃ hops : List Hop, (hops.map (·.edge) ++ edges).Perm w.edgeList ∧
      (∀ h ∈ hops, h.Along) ∧ p hops s)
    (by
      rintro edges s node e he ht ⟨hops, hperm, halong, hs⟩
      refine ⟨⟨node, e, e.farEnd node⟩ :: hops, ?_,
        List.forall_mem_cons.mpr ⟨⟨ht, rfl⟩, halong⟩, hstep hops s _ hs⟩
      have hmove : (hops.map (·.edge) ++ edges).Perm
          (e :: (hops.map (·.edge) ++ edges.erase e)) :=
        ((List.perm_cons_erase he).append_left _).trans List.perm_middle
      exact hmove.symm.trans hperm)
    w.edgeList [start] [start] state ⟨[], List.Perm.refl _, by simp, h⟩
  exact ⟨hops, (List.sublist_append_left _ left).subperm.trans hperm.subperm, halong, hend⟩

/-- A walk offers hops along edges of the wiring, each edge once at most. -/
theorem Wiring.hops_spec (w : Wiring) (start : Node) (verdict : Hop → Verdict) :
    ((w.hops start verdict).2.map (·.edge)).Subperm w.edgeList ∧
      ∀ h ∈ (w.hops start verdict).2, h.Along := by
  obtain ⟨hops, hsub, halong, hseen⟩ := w.traverse_induction start
    (fun seen h => (verdict h, h :: seen)) (p := fun hops seen => seen = hops) rfl
    fun hops seen hop hx => congrArg (hop :: ·) hx
  have hhops : (w.hops start verdict).2 = hops.reverse := congrArg List.reverse hseen
  rw [hhops]
  refine ⟨?_, fun h hh => halong h (List.mem_reverse.mp hh)⟩
  rw [List.map_reverse]
  exact (List.reverse_perm _).subperm.trans hsub

end Switchyard
