import Switchyard.Proofs.Maps
import Switchyard.Proofs.Walk

namespace Switchyard

open Std

variable {σ : Type}

/-- How far a walk has come: the numbers of the edges that it offered, the nodes that it
walked on from, its hops with the last one first, and what its visitor keeps. -/
structure Progress (σ : Type) where
  crossed : List Nat
  expanded : List Node
  hops : List Hop
  state : σ

namespace Progress

variable {visit : σ → Hop → Verdict × σ} {p q : Progress σ} {number : Nat} {hop : Hop}
  {verdict : Verdict} {state : σ} {edges : List (Nat × Edge)} {e : Edge}

def initial (start : Node) (state : σ) : Progress σ :=
  ⟨[], [start], [], state⟩

def cross (p : Progress σ) (number : Nat) (hop : Hop) (state : σ) : Progress σ :=
  { p with crossed := number :: p.crossed, hops := hop :: p.hops, state }

def expand (p : Progress σ) (node : Node) : Progress σ :=
  { p with expanded := node :: p.expanded }

/-- Offers an edge, unless that was done before. The answer is `onward` if the visitor says so
and the far end was not walked on from before. -/
def offer (p : Progress σ) (visit : σ → Hop → Verdict × σ) (number : Nat) (hop : Hop) :
    Verdict × Progress σ :=
  if number ∈ p.crossed then (.leave, p)
  else
    match visit p.state hop with
    | (.onward, state) =>
      if hop.target ∈ p.expanded then (.leave, p.cross number hop state)
      else (.onward, (p.cross number hop state).expand hop.target)
    | (verdict, state) => (verdict, p.cross number hop state)

/-- The edges of a list that were not offered yet. -/
def left (p : Progress σ) (edges : List (Nat × Edge)) : List (Nat × Edge) :=
  edges.filter (·.1 ∉ p.crossed)

theorem offer_of_crossed (h : number ∈ p.crossed) : p.offer visit number hop = (.leave, p) :=
  if_pos h

theorem offer_stop (hnew : number ∉ p.crossed) (h : visit p.state hop = (.stop, state)) :
    p.offer visit number hop = (.stop, p.cross number hop state) := by
  unfold offer
  rw [if_neg hnew, h]

theorem offer_pass (hnew : number ∉ p.crossed) (h : visit p.state hop = (verdict, state))
    (hgo : verdict ≠ .stop) (hin : verdict = .onward → hop.target ∈ p.expanded) :
    p.offer visit number hop = (.leave, p.cross number hop state) := by
  unfold offer
  rw [if_neg hnew, h]
  cases verdict with
  | onward => exact if_pos (hin rfl)
  | leave => rfl
  | stop => exact absurd rfl hgo

theorem offer_enter (hnew : number ∉ p.crossed) (h : visit p.state hop = (.onward, state))
    (hout : hop.target ∉ p.expanded) :
    p.offer visit number hop = (.onward, (p.cross number hop state).expand hop.target) := by
  unfold offer
  rw [if_neg hnew, h]
  exact if_neg hout

theorem crossed_offer (hnew : number ∉ p.crossed)
    (h : p.offer visit number hop = (verdict, q)) : q.crossed = number :: p.crossed := by
  unfold offer at h
  rw [if_neg hnew] at h
  split at h
  · split at h <;> cases h <;> rfl
  · cases h
    rfl

theorem crossed_sub_offer (h : p.offer visit number hop = (verdict, q)) :
    p.crossed ⊆ q.crossed := by
  by_cases hnew : number ∈ p.crossed
  · rw [offer_of_crossed hnew] at h
    cases h
    exact List.Subset.refl _
  · exact crossed_offer hnew h ▸ List.subset_cons_self _ _

theorem mem_left_iff {x : Nat × Edge} : x ∈ p.left edges ↔ x ∈ edges ∧ x.1 ∉ p.crossed := by
  simp [left]

theorem left_cross :
    (p.cross number hop state).left edges = (p.left edges).filter (·.1 ≠ number) := by
  unfold left
  rw [List.filter_filter]
  exact List.filter_congr fun x _ => by simp [cross]

theorem length_left_lt (he : (number, e) ∈ edges) (hnew : number ∉ p.crossed)
    (h : number :: p.crossed ⊆ q.crossed) : (q.left edges).length < (p.left edges).length := by
  have hsub : (q.left edges).Sublist (p.left edges) :=
    List.monotone_filter_right edges fun x hx => by
      rw [decide_eq_true_eq] at hx ⊢
      exact fun hp => hx (h (List.mem_cons_of_mem _ hp))
  have hne : (q.left edges).length ≠ (p.left edges).length := by
    intro hl
    have hin : (number, e) ∈ q.left edges :=
      hsub.eq_of_length hl ▸ mem_left_iff.mpr ⟨he, hnew⟩
    exact (mem_left_iff.mp hin).2 (h List.mem_cons_self)
  have := hsub.length_le
  omega

end Progress

/-- A node of a walk under way, with its edges that were not taken up yet. -/
structure Frame where
  node : Node
  pending : List (Nat × Edge)

namespace Wiring

/-- A node with all its edges, in the order of their numbers. -/
def frameAt (w : Wiring) (node : Node) : Frame :=
  ⟨node, w.edges.toList.filter (·.2.touches node)⟩

/-- A walk depth first by recursion over the pending edges of a node: an edge is offered, and
the walk goes into its far end at once if the answer is `onward`. It comes back at the end of
the edges, or is stopped. -/
inductive Descends (w : Wiring) (visit : σ → Hop → Verdict × σ) :
    Frame → Progress σ → Bool → Progress σ → Prop
  | done {node : Node} {p : Progress σ} : Descends w visit ⟨node, []⟩ p true p
  | stop {node : Node} {number : Nat} {e : Edge} {pending : List (Nat × Edge)} {p q : Progress σ}
    (hoffer : p.offer visit number ⟨node, e, e.farEnd node⟩ = (.stop, q)) :
    Descends w visit ⟨node, (number, e) :: pending⟩ p false q
  | leave {node : Node} {number : Nat} {e : Edge} {pending : List (Nat × Edge)} {p q r : Progress σ}
    {back : Bool} (hoffer : p.offer visit number ⟨node, e, e.farEnd node⟩ = (.leave, q))
    (hrest : Descends w visit ⟨node, pending⟩ q back r) :
    Descends w visit ⟨node, (number, e) :: pending⟩ p back r
  | stopBehind {node : Node} {number : Nat} {e : Edge} {pending : List (Nat × Edge)}
    {p q r : Progress σ}
    (hoffer : p.offer visit number ⟨node, e, e.farEnd node⟩ = (.onward, q))
    (hbehind : Descends w visit (w.frameAt (e.farEnd node)) q false r) :
    Descends w visit ⟨node, (number, e) :: pending⟩ p false r
  | enter {node : Node} {number : Nat} {e : Edge} {pending : List (Nat × Edge)}
    {p q r s : Progress σ}
    {back : Bool} (hoffer : p.offer visit number ⟨node, e, e.farEnd node⟩ = (.onward, q))
    (hbehind : Descends w visit (w.frameAt (e.farEnd node)) q true r)
    (hrest : Descends w visit ⟨node, pending⟩ r back s) :
    Descends w visit ⟨node, (number, e) :: pending⟩ p back s

/-- What a turn of a walk with a stack leads to. -/
inductive Turn (σ : Type) where
  | again (stack : List Frame) (p : Progress σ)
  | ended (back : Bool) (p : Progress σ)

/-- A turn of a walk with a stack of frames, whose edges are listed when they are pushed. -/
def turn (w : Wiring) (visit : σ → Hop → Verdict × σ) : List Frame → Progress σ → Turn σ
  | [], p => .ended true p
  | ⟨_, []⟩ :: rest, p => .again rest p
  | ⟨node, (number, e) :: pending⟩ :: rest, p =>
    match p.offer visit number ⟨node, e, e.farEnd node⟩ with
    | (.stop, p) => .ended false p
    | (.leave, p) => .again (⟨node, pending⟩ :: rest) p
    | (.onward, p) => .again (w.frameAt (e.farEnd node) :: ⟨node, pending⟩ :: rest) p

/-- A walk with a stack, turn after turn. -/
inductive Unwinds (w : Wiring) (visit : σ → Hop → Verdict × σ) :
    List Frame → Progress σ → Bool → Progress σ → Prop
  | ended {stack : List Frame} {p q : Progress σ} {back : Bool}
    (hturn : w.turn visit stack p = .ended back q) : Unwinds w visit stack p back q
  | again {stack stack' : List Frame} {p p' q : Progress σ} {back : Bool}
    (hturn : w.turn visit stack p = .again stack' p')
    (hrest : Unwinds w visit stack' p' back q) : Unwinds w visit stack p back q

section Turns

variable {w : Wiring} {visit : σ → Hop → Verdict × σ} {stack stack' : List Frame}
  {p p' q r : Progress σ} {node : Node} {number : Nat} {e : Edge} {pending : List (Nat × Edge)}
  {back : Bool} {f : Frame}

theorem unwinds_of_ended (h : w.turn visit stack p = .ended back q) :
    w.Unwinds visit stack p = fun b r => b = back ∧ r = q := by
  funext b r
  apply propext
  constructor
  · intro hunwinds
    cases hunwinds with
    | ended hturn =>
      cases h.symm.trans hturn
      exact ⟨rfl, rfl⟩
    | again hturn => cases h.symm.trans hturn
  · rintro ⟨rfl, rfl⟩
    exact .ended h

theorem unwinds_of_again (h : w.turn visit stack p = .again stack' p') :
    w.Unwinds visit stack p = w.Unwinds visit stack' p' := by
  funext b r
  apply propext
  constructor
  · intro hunwinds
    cases hunwinds with
    | ended hturn => cases h.symm.trans hturn
    | again hturn hrest =>
      cases h.symm.trans hturn
      exact hrest
  · exact .again h

theorem turn_stop {rest : List Frame}
    (h : p.offer visit number ⟨node, e, e.farEnd node⟩ = (.stop, q)) :
    w.turn visit (⟨node, (number, e) :: pending⟩ :: rest) p = .ended false q := by
  rw [turn, h]

theorem turn_leave {rest : List Frame}
    (h : p.offer visit number ⟨node, e, e.farEnd node⟩ = (.leave, q)) :
    w.turn visit (⟨node, (number, e) :: pending⟩ :: rest) p =
      .again (⟨node, pending⟩ :: rest) q := by
  rw [turn, h]

theorem turn_onward {rest : List Frame}
    (h : p.offer visit number ⟨node, e, e.farEnd node⟩ = (.onward, q)) :
    w.turn visit (⟨node, (number, e) :: pending⟩ :: rest) p =
      .again (w.frameAt (e.farEnd node) :: ⟨node, pending⟩ :: rest) q := by
  rw [turn, h]

theorem Descends.crossed_sub (h : w.Descends visit f p back q) : p.crossed ⊆ q.crossed := by
  induction h with
  | done => exact List.Subset.refl _
  | stop hoffer => exact Progress.crossed_sub_offer hoffer
  | leave hoffer _ ih | stopBehind hoffer _ ih =>
    exact List.Subset.trans (Progress.crossed_sub_offer hoffer) ih
  | enter hoffer _ _ ihbehind ihrest =>
    exact List.Subset.trans (Progress.crossed_sub_offer hoffer) (List.Subset.trans ihbehind ihrest)

/-- The walk with a stack does what the recursive walk does from its upper frame. Then it goes
on with the frames below, unless it was stopped. -/
theorem Descends.unwinds_eq (h : w.Descends visit f p back q) (rest : List Frame) :
    w.Unwinds visit (f :: rest) p =
      if back then w.Unwinds visit rest q else fun b r => b = false ∧ r = q := by
  induction h generalizing rest with
  | done => exact unwinds_of_again rfl
  | stop hoffer => exact unwinds_of_ended (turn_stop hoffer)
  | leave hoffer _ ih => exact (unwinds_of_again (turn_leave hoffer)).trans (ih rest)
  | stopBehind hoffer _ ih => exact (unwinds_of_again (turn_onward hoffer)).trans (ih _)
  | enter hoffer _ _ ihbehind ihrest =>
    rw [unwinds_of_again (turn_onward hoffer), ihbehind, if_pos rfl]
    exact ihrest rest

theorem Descends.unwinds_frame (h : w.Descends visit f p back q) :
    w.Unwinds visit [f] p = fun b r => b = back ∧ r = q := by
  rw [h.unwinds_eq []]
  cases back with
  | true => exact unwinds_of_ended rfl
  | false => rfl

end Turns

theorem frameAt_sub (w : Wiring) (node : Node) : (w.frameAt node).pending ⊆ w.edges.toList :=
  List.filter_subset_self _

theorem left_frameAt (w : Wiring) (p : Progress σ) (node : Node) :
    p.left (w.frameAt node).pending = (p.left w.edges.toList).filter (·.2.touches node) :=
  List.filter_comm _ _ _

theorem nodup_numbers (w : Wiring) : (w.edges.toList.map (·.1)).Nodup := by
  rw [ExtTreeMap.map_fst_toList_eq_keys]
  exact ExtTreeMap.nodup_keys

/-- Every recursive walk over edges of the wiring ends. -/
theorem exists_descends (w : Wiring) (visit : σ → Hop → Verdict × σ) (f : Frame) (p : Progress σ)
    (hf : f.pending ⊆ w.edges.toList) : ∃ back q, w.Descends visit f p back q := by
  -- On the number of edges left, then on those pending: an edge that is skipped leaves as many.
  induction hn : (p.left w.edges.toList).length using Nat.strongRecOn generalizing f p with
  | ind n ih =>
    obtain ⟨node, pending⟩ := f
    induction pending with
    | nil => exact ⟨true, p, .done⟩
    | cons x pending ihskip =>
      obtain ⟨number, e⟩ := x
      have hpending : pending ⊆ w.edges.toList := fun x hx => hf (List.mem_cons_of_mem _ hx)
      by_cases hnew : number ∈ p.crossed
      · obtain ⟨back, q, hrest⟩ := ihskip hpending
        exact ⟨back, q, .leave (Progress.offer_of_crossed hnew) hrest⟩
      have hless : ∀ {r : Progress σ}, number :: p.crossed ⊆ r.crossed →
          (r.left w.edges.toList).length < n := fun hr =>
        hn ▸ Progress.length_left_lt (hf List.mem_cons_self) hnew hr
      rcases hoffer : p.offer visit number ⟨node, e, e.farEnd node⟩ with ⟨verdict, q⟩
      have hq : number :: p.crossed ⊆ q.crossed :=
        Progress.crossed_offer hnew hoffer ▸ List.Subset.refl _
      cases verdict with
      | stop => exact ⟨false, q, .stop hoffer⟩
      | leave =>
        obtain ⟨back, r, hrest⟩ := ih _ (hless hq) ⟨node, pending⟩ q hpending rfl
        exact ⟨back, r, .leave hoffer hrest⟩
      | onward =>
        obtain ⟨back, r, hbehind⟩ :=
          ih _ (hless hq) (w.frameAt (e.farEnd node)) q (w.frameAt_sub _) rfl
        cases back with
        | false => exact ⟨false, r, .stopBehind hoffer hbehind⟩
        | true =>
          have hr : number :: p.crossed ⊆ r.crossed := List.Subset.trans hq hbehind.crossed_sub
          obtain ⟨back, s, hrest⟩ := ih _ (hless hr) ⟨node, pending⟩ r hpending rfl
          exact ⟨back, s, .enter hoffer hbehind hrest⟩

theorem descends_iff_unwinds {w : Wiring} {visit : σ → Hop → Verdict × σ} {f : Frame}
    {p q : Progress σ} {back : Bool} (hf : f.pending ⊆ w.edges.toList) :
    w.Descends visit f p back q ↔ w.Unwinds visit [f] p back q := by
  constructor
  · intro h
    rw [h.unwinds_frame]
    exact ⟨rfl, rfl⟩
  · -- The recursive walk has an end, and the walk with a stack has no other.
    obtain ⟨b, r, h⟩ := w.exists_descends visit f p hf
    rw [h.unwinds_frame]
    rintro ⟨rfl, rfl⟩
    exact h

/-- The stack of a walk with a trail. What is left of each frame is what is left at its node. -/
structure Tracks (w : Wiring) (edges : List Edge) (trail : List Node) (stack : List Frame)
    (p : Progress σ) : Prop where
  edges_eq : edges = (p.left w.edges.toList).map (·.2)
  frames : List.Forall₂
    (fun node f => f.node = node ∧ p.left f.pending = p.left (w.frameAt node).pending) trail stack

/-- The walk with a stack passes over the edges that were offered before. -/
theorem unwinds_cases (w : Wiring) (visit : σ → Hop → Verdict × σ) (node : Node)
    (pending : List (Nat × Edge)) (rest : List Frame) (p : Progress σ) :
    (p.left pending = [] ∧ w.Unwinds visit (⟨node, pending⟩ :: rest) p = w.Unwinds visit rest p) ∨
      ∃ number e later, number ∉ p.crossed ∧ p.left pending = (number, e) :: p.left later ∧
        w.Unwinds visit (⟨node, pending⟩ :: rest) p =
          w.Unwinds visit (⟨node, (number, e) :: later⟩ :: rest) p := by
  induction pending with
  | nil => exact Or.inl ⟨rfl, unwinds_of_again rfl⟩
  | cons x later ih =>
    obtain ⟨number, e⟩ := x
    by_cases hnew : number ∈ p.crossed
    · have hleft : p.left ((number, e) :: later) = p.left later :=
        List.filter_cons_of_neg (by simpa using hnew)
      rw [hleft, unwinds_of_again (turn_leave (Progress.offer_of_crossed hnew))]
      exact ih
    · have hleft : p.left ((number, e) :: later) = (number, e) :: p.left later :=
        List.filter_cons_of_pos (by simpa using hnew)
      exact Or.inr ⟨number, e, later, hnew, hleft, rfl⟩

/-- The first edge at a node is taken out alike by value and by number. -/
theorem erase_first {edges : List (Nat × Edge)} {node : Node} {number : Nat} {e : Edge}
    (hnodup : (edges.map (·.1)).Nodup)
    (h : edges.find? (·.2.touches node) = some (number, e)) :
    (edges.map (·.2)).erase e = (edges.filter (·.1 ≠ number)).map (·.2) := by
  obtain ⟨ht, before, after, rfl, hbefore⟩ := List.find?_eq_some_iff_append.mp h
  have hout : e ∉ before.map (·.2) := by
    intro hin
    obtain ⟨x, hx, rfl⟩ := List.mem_map.mp hin
    have hno := hbefore x hx
    rw [ht] at hno
    cases hno
  rw [List.map_append, List.map_cons, List.nodup_middle, List.nodup_cons, List.mem_append,
    not_or] at hnodup
  have hkeep : ∀ {l : List (Nat × Edge)}, number ∉ l.map (·.1) →
      l.filter (·.1 ≠ number) = l := fun hl =>
    List.filter_eq_self.mpr fun x hx => decide_eq_true fun he => hl (List.mem_map.mpr ⟨x, hx, he⟩)
  rw [List.map_append, List.erase_append_right _ hout, List.map_cons, List.erase_cons_head,
    List.filter_append, hkeep hnodup.1.1, List.filter_cons_of_neg (by simp), hkeep hnodup.1.2,
    List.map_append]

namespace Tracks

variable {w : Wiring} {edges : List Edge} {trail : List Node} {stack : List Frame}
  {p : Progress σ} {node : Node} {e : Edge}

theorem initial (w : Wiring) (start : Node) (state : σ) :
    w.Tracks w.edgeList [start] [w.frameAt start] (.initial start state) where
  edges_eq := by
    have hleft : (Progress.initial start state).left w.edges.toList = w.edges.toList :=
      List.filter_eq_self.mpr (by simp [Progress.initial])
    rw [hleft]
    exact values_eq_map_toList w.edges
  frames := List.forall₂_cons.mpr ⟨⟨rfl, rfl⟩, .nil⟩

theorem find?_eq {pending : List (Nat × Edge)}
    (h : w.Tracks edges (node :: trail) (⟨node, pending⟩ :: stack) p) :
    edges.find? (·.touches node) = (p.left pending).head?.map (·.2) := by
  obtain ⟨⟨-, hleft⟩, -⟩ := List.forall₂_cons.mp h.frames
  rw [h.edges_eq, List.find?_map, hleft, left_frameAt, List.head?_filter]
  rfl

theorem cross {pending later : List (Nat × Edge)} {number : Nat}
    (h : w.Tracks edges (node :: trail) (⟨node, pending⟩ :: stack) p)
    (hleft : p.left pending = (number, e) :: p.left later) (hop : Hop) (state : σ) :
    w.Tracks (edges.erase e) (node :: trail) (⟨node, later⟩ :: stack)
      (p.cross number hop state) := by
  obtain ⟨⟨-, htop⟩, hrest⟩ := List.forall₂_cons.mp h.frames
  constructor
  · have hnodup : ((p.left w.edges.toList).map (·.1)).Nodup :=
      w.nodup_numbers.sublist (List.filter_sublist.map _)
    have hfind : (p.left w.edges.toList).find? (·.2.touches node) = some (number, e) := by
      rw [← List.head?_filter, ← left_frameAt, ← htop, hleft, List.head?_cons]
    rw [h.edges_eq, erase_first hnodup hfind, Progress.left_cross]
  · have hlater : (p.cross number hop state).left later =
        (p.cross number hop state).left (w.frameAt node).pending := by
      rw [Progress.left_cross, Progress.left_cross, ← htop, hleft,
        List.filter_cons_of_neg (by simp)]
    refine List.forall₂_cons.mpr ⟨⟨rfl, hlater⟩, hrest.imp fun a f hf => ⟨hf.1, ?_⟩⟩
    rw [Progress.left_cross, Progress.left_cross, hf.2]

theorem expand (h : w.Tracks edges trail stack p) (node : Node) :
    w.Tracks edges (node :: trail) (w.frameAt node :: stack) (p.expand node) where
  edges_eq := h.edges_eq
  frames := List.forall₂_cons.mpr ⟨⟨rfl, rfl⟩, h.frames⟩

/-- A node with no more edges to offer is left by both walks. -/
theorem back (h : w.Tracks edges (node :: trail) stack p) (visit : σ → Hop → Verdict × σ)
    (hnone : edges.find? (·.touches node) = none) :
    ∃ rest, w.Tracks edges trail rest p ∧ w.Unwinds visit stack p = w.Unwinds visit rest p := by
  obtain ⟨⟨_, pending⟩, rest, ⟨rfl, -⟩, hrest, rfl⟩ := List.forall₂_cons_left_iff.mp h.frames
  rcases w.unwinds_cases visit _ pending rest p with ⟨-, hunwind⟩ | ⟨number, e, later, -, hleft, -⟩
  · exact ⟨rest, ⟨h.edges_eq, hrest⟩, hunwind⟩
  · rw [h.find?_eq, hleft] at hnone
    cases hnone

/-- Both walks offer the same edge. -/
theorem next (h : w.Tracks edges (node :: trail) stack p) (visit : σ → Hop → Verdict × σ)
    (hfind : edges.find? (·.touches node) = some e) :
    ∃ number later rest, number ∉ p.crossed ∧
      w.Unwinds visit stack p = w.Unwinds visit (⟨node, (number, e) :: later⟩ :: rest) p ∧
      ∀ hop state, w.Tracks (edges.erase e) (node :: trail) (⟨node, later⟩ :: rest)
        (p.cross number hop state) := by
  obtain ⟨⟨_, pending⟩, rest, ⟨rfl, -⟩, -, rfl⟩ := List.forall₂_cons_left_iff.mp h.frames
  rw [h.find?_eq] at hfind
  rcases w.unwinds_cases visit _ pending rest p with ⟨hleft, -⟩ |
    ⟨number, f, later, hnew, hleft, hunwind⟩
  · rw [hleft] at hfind
    cases hfind
  · rw [hleft] at hfind
    cases hfind
    exact ⟨number, later, rest, hnew, hunwind, h.cross hleft⟩

end Tracks

section Seen

variable {w : Wiring} {visit : σ → Hop → Verdict × σ}

/-- A visitor that notes the hops besides, the last one first. -/
def noting (visit : σ → Hop → Verdict × σ) (s : List Hop × σ) (hop : Hop) :
    Verdict × (List Hop × σ) :=
  ((visit s.2 hop).1, (hop :: s.1, (visit s.2 hop).2))

theorem noting_eq {s : List Hop × σ} {hop : Hop} {verdict : Verdict} {state : σ}
    (h : visit s.2 hop = (verdict, state)) :
    noting visit s hop = (verdict, (hop :: s.1, state)) := by
  rw [noting, h]

theorem eq_of_noting {s next : List Hop × σ} {hop : Hop} {verdict : Verdict}
    (h : noting visit s hop = (verdict, next)) :
    visit s.2 hop = (verdict, next.2) ∧ next = (hop :: s.1, next.2) := by
  cases h
  exact ⟨rfl, rfl⟩

/-- Noting the hops does not change a walk. -/
theorem walk_noting (visit : σ → Hop → Verdict × σ) (edges : List Edge)
    (entered trail : List Node) (state : σ) (hops : List Hop) :
    ∃ noted, walk (noting visit) edges entered trail (hops, state) =
      ((walk visit edges entered trail state).1, noted,
        (walk visit edges entered trail state).2) := by
  induction edges, entered, trail, state using walk.induct visit generalizing hops with
  | case1 edges entered state => exact ⟨hops, by rw [walk, walk]⟩
  | case2 edges entered state node rest hnone ih =>
    rw [walk_back hnone, walk_back hnone]
    exact ih hops
  | case3 edges entered state node rest e hfind target next hvisit =>
    rw [walk_stop hfind (noting_eq hvisit), walk_stop hfind hvisit]
    exact ⟨_, rfl⟩
  | case4 edges entered state node rest e hfind target next hvisit ih =>
    rw [walk_pass hfind (noting_eq hvisit) Verdict.noConfusion Verdict.noConfusion,
      walk_pass hfind hvisit Verdict.noConfusion Verdict.noConfusion]
    exact ih _
  | case5 edges entered state node rest e hfind target next hvisit hin ih =>
    rw [walk_pass hfind (noting_eq hvisit) Verdict.noConfusion fun _ => hin,
      walk_pass hfind hvisit Verdict.noConfusion fun _ => hin]
    exact ih _
  | case6 edges entered state node rest e hfind target next hvisit hout ih =>
    rw [walk_enter hfind (noting_eq hvisit) hout, walk_enter hfind hvisit hout]
    exact ih _

/-- The walk has a stack from which the walk with a stack has the given end. -/
def Follows (w : Wiring) (visit : σ → Hop → Verdict × σ) (final : Bool → Progress σ → Prop)
    (edges : List Edge) (entered trail : List Node) (s : List Hop × σ) : Prop :=
  ∃ stack p, w.Tracks edges trail stack p ∧ p.expanded = entered ∧ (p.hops, p.state) = s ∧
    w.Unwinds visit stack p = final

/-- A walk that notes its hops ends as the walk with a stack does. -/
theorem Follows.walk_eq {final : Bool → Progress σ → Prop} {edges : List Edge}
    {entered trail : List Node} {s : List Hop × σ}
    (h : w.Follows visit final edges entered trail s) :
    ∃ q, (∀ b r, final b r ↔ b = (walk (noting visit) edges entered trail s).1 ∧ r = q) ∧
      (q.hops, q.state) = (walk (noting visit) edges entered trail s).2 := by
  have hend : ∀ {stack : List Frame} {p q : Progress σ} {back : Bool},
      w.Unwinds visit stack p = final → w.turn visit stack p = .ended back q →
      ∀ b r, final b r ↔ b = back ∧ r = q := by
    intro stack p q back hfinal hturn b r
    rw [← hfinal, unwinds_of_ended hturn]
  refine walk_follows (p := w.Follows visit final)
    (q := fun result => ∃ q, (∀ b r, final b r ↔ b = result.1 ∧ r = q) ∧
      (q.hops, q.state) = result.2) ?_ ?_ ?_ ?_ ?_ edges entered trail s h
  · rintro edges entered s ⟨stack, p, htracks, -, hs, hfinal⟩
    cases htracks.frames
    exact ⟨p, hend hfinal rfl, hs⟩
  · rintro edges entered node rest s ⟨stack, p, htracks, hentered, hs, hfinal⟩ hnone
    obtain ⟨stack', hback, hunwinds⟩ := htracks.back visit hnone
    exact ⟨stack', p, hback, hentered, hs, hunwinds ▸ hfinal⟩
  · rintro edges entered node rest s e next ⟨stack, p, htracks, rfl, rfl, hfinal⟩ hfind hvisit
    obtain ⟨hvisit, hnext⟩ := eq_of_noting hvisit
    obtain ⟨number, later, stack', hnew, hunwinds, -⟩ := htracks.next visit hfind
    rw [hunwinds] at hfinal
    exact ⟨_, hend hfinal (turn_stop (Progress.offer_stop hnew hvisit)), hnext.symm⟩
  · rintro edges entered node rest s e verdict next ⟨stack, p, htracks, rfl, rfl, hfinal⟩ hfind
      hvisit hgo hin
    obtain ⟨hvisit, hnext⟩ := eq_of_noting hvisit
    obtain ⟨number, later, stack', hnew, hunwinds, hcross⟩ := htracks.next visit hfind
    rw [hunwinds, unwinds_of_again (turn_leave (Progress.offer_pass hnew hvisit hgo hin))] at hfinal
    exact ⟨_, _, hcross _ next.2, rfl, hnext.symm, hfinal⟩
  · rintro edges entered node rest s e next ⟨stack, p, htracks, rfl, rfl, hfinal⟩ hfind hvisit hout
    obtain ⟨hvisit, hnext⟩ := eq_of_noting hvisit
    obtain ⟨number, later, stack', hnew, hunwinds, hcross⟩ := htracks.next visit hfind
    rw [hunwinds, unwinds_of_again (turn_onward (Progress.offer_enter hnew hvisit hout))] at hfinal
    exact ⟨_, _, (hcross _ next.2).expand _, rfl, hnext.symm, hfinal⟩

end Seen

/-- The hops that a walk offers to its visitor, in order. -/
def offered (w : Wiring) (start : Node) (visit : σ → Hop → Verdict × σ) (state : σ) : List Hop :=
  (w.traverse start (noting visit) ([], state)).2.1.reverse

/-- The walk with a stack has one end, and it is that of a walk. -/
theorem exists_unwinds_iff (w : Wiring) (start : Node) (visit : σ → Hop → Verdict × σ)
    (state : σ) :
    ∃ q, (∀ b r, w.Unwinds visit [w.frameAt start] (.initial start state) b r ↔
        b = (w.traverse start visit state).1 ∧ r = q) ∧
      q.hops.reverse = w.offered start visit state ∧
      q.state = (w.traverse start visit state).2 := by
  have hfollows : w.Follows visit (w.Unwinds visit [w.frameAt start] (.initial start state))
      w.edgeList [start] [start] ([], state) :=
    ⟨_, _, .initial w start state, rfl, rfl, rfl⟩
  obtain ⟨q, hend, hseen⟩ := hfollows.walk_eq
  obtain ⟨noted, hnoted⟩ := walk_noting visit w.edgeList [start] [start] state []
  rw [hnoted] at hend hseen
  obtain ⟨hhops, hstate⟩ := Prod.mk.inj hseen
  refine ⟨q, hend, ?_, hstate⟩
  rw [offered, traverse, hnoted, hhops]

/-- The recursive walk from a node comes back or is stopped, after these hops, and leaves its
visitor like this. -/
def Descent (w : Wiring) (start : Node) (visit : σ → Hop → Verdict × σ) (state : σ) (back : Bool)
    (hops : List Hop) (final : σ) : Prop :=
  ∃ p, w.Descends visit (w.frameAt start) (.initial start state) back p ∧
    p.hops.reverse = hops ∧ p.state = final

/-- The walk with a stack from a node comes back or is stopped, after these hops, and leaves its
visitor like this. -/
def Unwinding (w : Wiring) (start : Node) (visit : σ → Hop → Verdict × σ) (state : σ) (back : Bool)
    (hops : List Hop) (final : σ) : Prop :=
  ∃ p, w.Unwinds visit [w.frameAt start] (.initial start state) back p ∧
    p.hops.reverse = hops ∧ p.state = final

/-- The recursive walk ends with any visitor. A walk offers the same hops in the same order,
gives the same answer and leaves its visitor in the same state, as does the walk with a stack. -/
theorem descent_iff_traverse (w : Wiring) (start : Node) (visit : σ → Hop → Verdict × σ)
    (state : σ) (back : Bool) (hops : List Hop) (final : σ) :
    (w.Descent start visit state back hops final ↔
        w.traverse start visit state = (back, final) ∧ w.offered start visit state = hops) ∧
      (w.Unwinding start visit state back hops final ↔
        w.Descent start visit state back hops final) := by
  have hsame : ∀ p, w.Descends visit (w.frameAt start) (.initial start state) back p ↔
      w.Unwinds visit [w.frameAt start] (.initial start state) back p := fun _ =>
    descends_iff_unwinds (w.frameAt_sub start)
  obtain ⟨q, hend, hhops, hstate⟩ := w.exists_unwinds_iff start visit state
  constructor
  · rw [Prod.ext_iff, ← hhops, ← hstate]
    simp only [Descent, hsame, hend]
    constructor
    · rintro ⟨_, ⟨hback, rfl⟩, hoffered, hfinal⟩
      exact ⟨⟨hback.symm, hfinal⟩, hoffered⟩
    · rintro ⟨⟨hback, hfinal⟩, hoffered⟩
      exact ⟨q, ⟨hback.symm, rfl⟩, hoffered, hfinal⟩
  · simp only [Descent, Unwinding, hsame]

/-- A ring of three nodes with a spur, under a visitor that stops at the fourth edge. -/
example :
    let w : Wiring := [(0, 1), (1, 2), (1, 3), (2, 0)].foldl (fun w c => w.addConnection c.1 c.2) {}
    let visit (count : Nat) (_ : Hop) := (if count < 3 then Verdict.onward else .stop, count + 1)
    ((w.offered 0 visit 0).map fun h => (h.source, h.target)) =
      [(0, 1), (1, 2), (2, 0), (1, 3)] := by
  decide +kernel

end Wiring

end Switchyard
