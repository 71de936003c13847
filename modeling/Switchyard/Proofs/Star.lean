import Switchyard.Proofs.Pruning

namespace Switchyard

open Std

/-- The first element found comes first among those like it, and the others stay
as they are without it. -/
theorem filter_of_find? {α : Type} [DecidableEq α] {p : α → Bool} {xs : List α} {x : α}
    (h : xs.find? p = some x) :
    xs.filter p = x :: (xs.erase x).filter p ∧
      (xs.erase x).filter (fun y => !p y) = xs.filter fun y => !p y := by
  induction xs with
  | nil => cases h
  | cons y ys ih =>
    rw [List.find?_cons] at h
    cases hy : p y with
    | true =>
      rw [hy] at h
      cases h
      simp [hy]
    | false =>
      rw [hy] at h
      have hx : p x = true := List.find?_some h
      have hne : y ≠ x := fun he => by simp [he, hx] at hy
      obtain ⟨hin, hout⟩ := ih h
      simp [hy, hne, hin, hout]

/-- The hop along an edge from a node. -/
def Edge.hop (node : Node) (e : Edge) : Hop :=
  ⟨node, e, e.farEnd node⟩

/-- Where a walk leaves the far end of each edge of a node, it offers these
edges in turn and goes back. -/
theorem walk_leaves {verdict : Hop → Verdict} {node : Node} (edges : List Edge)
    (entered rest : List Node) (seen : List Hop)
    (h : ∀ e ∈ edges, e.touches node = true → verdict (e.hop node) = .leave) :
    walk (fun seen h => (verdict h, h :: seen)) edges entered (node :: rest) seen =
      walk (fun seen h => (verdict h, h :: seen)) (edges.filter (!·.touches node)) entered rest
        (((edges.filter (·.touches node)).map (·.hop node)).reverse ++ seen) := by
  induction hl : edges.length generalizing edges seen with
  | zero =>
    cases List.length_eq_zero_iff.mp hl
    rw [walk]
    rfl
  | succ count ih =>
    rw [walk]
    cases hfind : edges.find? (·.touches node) with
    | none =>
      have hnone : ∀ e ∈ edges, e.touches node = false := by
        simpa using List.find?_eq_none.mp hfind
      have hin : edges.filter (·.touches node) = [] := by
        simpa [List.filter_eq_nil_iff] using hnone
      have hout : edges.filter (!·.touches node) = edges := by
        simpa [List.filter_eq_self] using hnone
      rw [hin, hout]
      rfl
    | some e =>
      have hmem := List.mem_of_find?_eq_some hfind
      have ht : e.touches node = true := by simpa using List.find?_some hfind
      have hverdict : verdict ⟨node, e, e.farEnd node⟩ = .leave := h e hmem ht
      have hlength : (edges.erase e).length = count := by
        rw [List.length_erase_of_mem hmem, hl]
        rfl
      obtain ⟨hin, hout⟩ := filter_of_find? hfind
      dsimp only
      rw [hverdict]
      dsimp only
      rw [ih (edges.erase e) _ (fun x hx => h x (List.mem_of_mem_erase hx)) hlength, hout, hin,
        List.map_cons, List.reverse_cons, List.append_assoc]
      rfl

/-- A walk along the one edge of its start to a node whose other edges lead to
ends that are left. -/
theorem Wiring.hops_of_star {w : Wiring} {v : Hop → Verdict} {start fork : Node} {e : Edge}
    (hstart : w.edgeList.filter (·.touches start) = [e]) (hfar : e.farEnd start = fork)
    (hne : start ≠ fork) (honward : v (e.hop start) = .onward)
    (hleave : ∀ x ∈ w.edgeList.erase e, x.touches fork = true → v (x.hop fork) = .leave) :
    (w.hops start v).2 =
      e.hop start :: ((w.edgeList.erase e).filter (·.touches fork)).map (·.hop fork) := by
  have hfind : w.edgeList.find? (·.touches start) = some e := by
    rw [← List.head?_filter, hstart]
    rfl
  have hgone : ∀ x ∈ w.edgeList.erase e, x.touches start = false := by
    obtain ⟨hin, -⟩ := filter_of_find? hfind
    rw [hstart, List.cons.injEq] at hin
    simpa [List.filter_eq_nil_iff] using hin.2.symm
  have hlast : ((w.edgeList.erase e).filter (!·.touches fork)).find? (·.touches start) = none := by
    rw [List.find?_eq_none]
    intro x hx
    simp [hgone x (List.mem_of_mem_filter hx)]
  have honward : v ⟨start, e, e.farEnd start⟩ = .onward := honward
  unfold hops traverse
  rw [walk, hfind]
  dsimp only
  rw [honward]
  dsimp only
  rw [hfar, if_neg (by simpa using hne.symm), walk_leaves _ _ _ _ hleave, walk, hlast]
  dsimp only
  rw [walk]
  simp [Edge.hop, hfar]

/-- Around the start of a bay: a first edge to the fork, and from there edges to
busbar sections only. Neither the start nor the fork is one. -/
structure Network.Star (n : Network) (w : Wiring) (start fork : Node) (first : Edge)
    (others : Set Edge) : Prop where
  ends : first.node1 = start ∧ first.node2 = fork
  apart : start ≠ fork
  clear : n.occupant w start ≠ .rail ∧ n.occupant w fork ≠ .rail
  edges_start : w.edgeList.filter (·.touches start) = [first]
  edges_fork : ∀ x, x ∈ w.edgeList.erase first ∧ x.touches fork = true ↔ x ∈ others
  others_ends : ∀ x ∈ others, x.node1 = fork ∧ n.occupant w x.node2 = .rail

namespace Bay

/-- The edges that leave a busbar section are not taken, so branches that end
there are single edges. -/
theorem removeBranches_of_rails {b : Bay} {fork : Node} (entries : List (Nat × Edge))
    (hin : ∀ x ∈ entries, x ∈ b.edges) (hnumbers : (entries.map (·.1)).Nodup)
    (hrail : ∀ x ∈ entries, b.occupant (x.2.farEnd fork) = .rail) :
    (b.removeBranches (entries.map (fork, ·))).1 = entries.map fun x => .remove x.2 := by
  induction entries generalizing b with
  | nil =>
    rw [List.map_nil, removeBranches]
    rfl
  | cons x rest ih =>
    obtain ⟨hx, hins⟩ := List.forall_mem_cons.mp hin
    obtain ⟨hxrail, hrails⟩ := List.forall_mem_cons.mp hrail
    obtain ⟨hnot, hnodup⟩ := List.nodup_cons.mp hnumbers
    have honward : (b.without x.1).onward (x.2.farEnd fork) = [] := by
      rw [onward, if_pos]
      exact hxrail
    have hkept : ∀ y ∈ rest, y ∈ (b.without x.1).edges := by
      intro y hy
      refine List.mem_filter.mpr ⟨hins y hy, ?_⟩
      have hne : y.1 ≠ x.1 := fun he => hnot (List.mem_map.mpr ⟨y, hy, he⟩)
      simpa using hne
    rw [List.map_cons, removeBranches, dif_pos hx]
    dsimp only
    rw [honward, List.nil_append, ih hkept hnodup hrails, List.map_cons]

theorem reach_rail {b : Bay} {fork first : Node} (h : b.occupant first = .rail) :
    b.reach fork first = { rail := true } := by
  unfold reach
  rw [if_pos (Or.inr h), h]
  rfl

/-- A fork with branches to busbar sections only is pruned altogether. -/
theorem prune_of_rails {b : Bay} {fork : Node} (hnumbers : (b.edges.map (·.1)).Nodup)
    (hrails : ∀ x ∈ b.edges, x.2.touches fork = true ∧ b.occupant (x.2.farEnd fork) = .rail) :
    b.prune fork = b.edges.map fun x => .remove x.2 := by
  have hall : b.edgesAt fork = b.edges := by
    rw [edgesAt, List.filter_eq_self]
    exact fun x hx => (hrails x hx).1
  rw [prune]
  split
  next hnil =>
    rw [hall] at hnil
    rw [hnil, List.map_nil]
  next entry hone =>
    rw [hall] at hone
    have hrest : ((b.without entry.1).edgesAt (entry.2.farEnd fork)) = [] := by
      simp [edgesAt, without, hone]
    rw [hone, prune]
    split
    · rfl
    · simp_all
    · simp_all
  next =>
    have hbranches : (b.edgesAt fork).map (fun x => (x, b.reach fork (x.2.farEnd fork))) =
        b.edges.map fun x => (x, ({ rail := true } : Reach)) := by
      rw [hall]
      exact List.map_congr_left fun x hx => by rw [reach_rail (hrails x hx).2]
    unfold pruneFork
    dsimp only
    rw [hbranches]
    have hsame : ∀ x ∈ b.edges.map fun x => (x, ({ rail := true } : Reach)),
        x.2 = { rail := true } := by
      intro x hx
      obtain ⟨y, -, rfl⟩ := List.mem_map.mp hx
      rfl
    have hshared : (b.edges.map fun x => (x, ({ rail := true } : Reach))).any
        (fun x => x.2.equipment && !x.2.rail) = false :=
      List.any_eq_false.mpr fun x hx => by simp [hsame x hx]
    have hfree : (b.edges.map fun x => (x, ({ rail := true } : Reach))).filter
        (fun x => !x.2.equipment) = b.edges.map fun x => (x, ({ rail := true } : Reach)) :=
      List.filter_eq_self.mpr fun x hx => by simp [hsame x hx]
    have hkept : ((b.edges.map fun x => (x, ({ rail := true } : Reach))).filter
        (fun x => x.2.equipment)).length ≠ 1 := by
      rw [List.filter_eq_nil_iff.mpr fun x hx => by simp [hsame x hx]]
      simp
    rw [hshared, hfree, if_neg Bool.false_ne_true, if_neg hkept, List.map_map]
    exact removeBranches_of_rails b.edges (fun _ hx => hx) hnumbers fun x hx => (hrails x hx).2

/-- A first edge to a fork, and from there edges to busbar sections only, are all
removed. -/
theorem prune_of_star {b : Bay} {start fork : Node} {first : Edge} {rest : List Edge}
    (hedges : b.edges = ((first :: rest).zipIdx).map Prod.swap)
    (hfirst : first.touches start = true ∧ first.farEnd start = fork)
    (hstart : ∀ x ∈ rest, x.touches start = false)
    (hrails : ∀ x ∈ rest, x.touches fork = true ∧ b.occupant (x.farEnd fork) = .rail) :
    b.prune start = (first :: rest).map .remove := by
  have hedges : b.edges = (0, first) :: (rest.zipIdx 1).map Prod.swap := by
    rw [hedges, List.zipIdx_cons, List.map_cons]
    rfl
  have hmem : ∀ y ∈ (rest.zipIdx 1).map Prod.swap, y.1 ≠ 0 ∧ y.2 ∈ rest := by
    intro y hy
    obtain ⟨⟨x, k⟩, hx, rfl⟩ := List.mem_map.mp hy
    obtain ⟨hk, -, hx⟩ := List.mem_zipIdx hx
    have hpos : k ≠ 0 := by omega
    exact ⟨hpos, hx ▸ List.getElem_mem _⟩
  have hone : b.edgesAt start = [(0, first)] := by
    rw [edgesAt, hedges, List.filter_cons, if_pos hfirst.1, List.filter_eq_nil_iff.mpr]
    intro y hy
    simp [hstart y.2 (hmem y hy).2]
  have hwithout : (b.without 0).edges = (rest.zipIdx 1).map Prod.swap := by
    rw [without, hedges, List.filter_cons, if_neg (by simp), List.filter_eq_self.mpr]
    intro y hy
    simpa using (hmem y hy).1
  have hfork : (b.without 0).prune fork = rest.map .remove := by
    rw [prune_of_rails, hwithout, List.map_map]
    · have hsnd := congrArg (List.map Cut.remove) (List.zipIdx_map_fst 1 rest)
      rw [List.map_map] at hsnd
      exact hsnd
    · have hnumbers : ((rest.zipIdx 1).map Prod.swap).map (·.1) = List.range' 1 rest.length := by
        rw [List.map_map]
        exact List.zipIdx_map_snd 1 rest
      rw [hwithout, hnumbers]
      exact List.nodup_range'
    · intro y hy
      rw [hwithout] at hy
      exact hrails y.2 (hmem y hy).2
  rw [prune]
  split
  next hnil => simp [hone] at hnil
  next entry hentry =>
    rw [hone] at hentry
    cases hentry
    rw [hfirst.2, hfork, List.map_cons]
  next _ hmany => exact absurd hone (hmany _)

end Bay

namespace Network.Star

variable {n : Network} {w : Wiring} {start fork : Node} {first : Edge} {others : Set Edge}

theorem touches_others (h : n.Star w start fork first others) {x : Edge} (hx : x ∈ others) :
    x.farEnd fork = x.node2 ∧ x.touches start = false := by
  obtain ⟨h1, h2⟩ := h.others_ends x hx
  refine ⟨by rw [Edge.farEnd, if_pos h1], ?_⟩
  have hstart : x.node1 ≠ start := fun he => h.apart (he.symm.trans h1)
  have hend : x.node2 ≠ start := fun he => h.clear.1 (he ▸ h2)
  simp [Edge.touches, hstart, hend]

theorem edges_bay (h : n.Star w start fork first others) :
    (n.bay w start).edges =
      ((first :: (w.edgeList.erase first).filter (·.touches fork)).zipIdx).map Prod.swap := by
  have hfar : first.farEnd start = fork := by
    rw [Edge.farEnd, if_pos h.ends.1, h.ends.2]
  have hhops := Wiring.hops_of_star
    (v := fun h => if n.occupant w h.target = .rail then .leave else .onward)
    h.edges_start hfar h.apart (by simp [Edge.hop, hfar, h.clear.2]) (by
      intro x hx ht
      have hin := (h.edges_fork x).mp ⟨hx, ht⟩
      simp [Edge.hop, (h.touches_others hin).1, (h.others_ends x hin).2])
  have hturn : ((first.hop start) :: ((w.edgeList.erase first).filter (·.touches fork)).map
      (·.hop fork)).map (fun h => (⟨h.source, h.target, h.edge.link⟩ : Edge)) =
      first :: (w.edgeList.erase first).filter (·.touches fork) := by
    rw [List.map_cons, List.map_map, List.cons.injEq]
    constructor
    · have hends : (⟨start, fork, first.link⟩ : Edge) = first := by
        rw [← h.ends.1, ← h.ends.2]
      simpa only [Edge.hop, hfar] using hends
    · refine (List.map_congr_left fun x hx => ?_).trans (List.map_id _)
      have hin := (h.edges_fork x).mp (List.mem_filter.mp hx)
      have hends : (⟨fork, x.node2, x.link⟩ : Edge) = x := by
        rw [← (h.others_ends x hin).1]
      simpa only [Function.comp_apply, Edge.hop, (h.touches_others hin).1, id_eq] using hends
  unfold Network.bay
  rw [hhops, ← hturn, List.zipIdx_map, List.map_map]
  rfl

theorem prune (h : n.Star w start fork first others) :
    ∃ es : List Edge, (n.bay w start).prune start = es.map .remove ∧
      ∀ x, x ∈ es ↔ x = first ∨ x ∈ others := by
  have hrest : ∀ x ∈ (w.edgeList.erase first).filter (·.touches fork), x ∈ others := fun x hx =>
    (h.edges_fork x).mp (List.mem_filter.mp hx)
  refine ⟨first :: (w.edgeList.erase first).filter (·.touches fork),
    Bay.prune_of_star h.edges_bay ⟨?_, ?_⟩ (fun x hx => (h.touches_others (hrest x hx)).2)
      fun x hx => ⟨(List.mem_filter.mp hx).2, ?_⟩, fun x => ?_⟩
  · simp [Edge.touches, h.ends.1]
  · rw [Edge.farEnd, if_pos h.ends.1, h.ends.2]
  · rw [(h.touches_others (hrest x hx)).1]
    exact (h.others_ends x (hrest x hx)).2
  · rw [List.mem_cons, List.mem_filter, h.edges_fork]

end Network.Star

end Switchyard
