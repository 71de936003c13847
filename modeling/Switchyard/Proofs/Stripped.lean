import Switchyard.Proofs.Forks

namespace Switchyard.Bay

open Relation

variable {b : Bay} {fork node x y z : Node} {entry : Nat × Edge}
  {pending : List (Node × Nat × Edge)}

theorem not_mem_of_edgesAt_nil (h : b.edgesAt y = []) (ht : entry.2.touches y = true) :
    entry ∉ b.edges := by
  intro hin
  have hat := mem_edgesAt.mpr ⟨hin, ht⟩
  rw [h] at hat
  cases hat

/-- The edges to take are at the nodes to start from. At those off the fork, all edges are
to be taken. -/
def Exhausts (b : Bay) (fork : Node) (pending : List (Node × Nat × Edge)) : Prop :=
  ∀ item ∈ pending, item.2.2.touches item.1 = true ∧
    (item.1 = fork ∨ ∀ next ∈ b.edgesAt item.1, ∃ o, (o, next) ∈ pending)

theorem exhausts_at_fork (h : ∀ item ∈ pending, item.1 = fork ∧ item.2 ∈ b.edgesAt fork) :
    b.Exhausts fork pending := by
  intro item hitem
  obtain ⟨hfork, hat⟩ := h item hitem
  exact ⟨hfork ▸ (mem_edgesAt.mp hat).2, Or.inl hfork⟩

theorem Exhausts.onward (h : b.Exhausts fork ((node, entry) :: pending)) :
    (b.without entry.1).Exhausts fork
      ((b.without entry.1).onward (entry.2.farEnd node) ++ pending) := by
  intro item hitem
  rcases List.mem_append.mp hitem with hnext | hrest
  · obtain ⟨hopen, hfar, hat⟩ := mem_onward.mp hnext
    rw [hfar]
    exact ⟨(mem_edgesAt.mp hat).2, Or.inr fun other hother => ⟨_,
      List.mem_append_left _ (mem_onward.mpr ⟨hopen, rfl, hother⟩)⟩⟩
  · obtain ⟨ht, hall⟩ := h item (List.mem_cons_of_mem _ hrest)
    refine ⟨ht, hall.imp_right fun hall next hnext => ?_⟩
    obtain ⟨hmem, ht⟩ := mem_edgesAt.mp hnext
    obtain ⟨hmem, hne⟩ := mem_without.mp hmem
    obtain ⟨o, ho⟩ := hall next (mem_edgesAt.mpr ⟨hmem, ht⟩)
    refine ⟨o, List.mem_append_right _ ((List.mem_cons.mp ho).resolve_left fun he => ?_)⟩
    exact hne (congrArg (fun item => item.2.1) he)

theorem Exhausts.skip (h : b.Exhausts fork ((node, entry) :: pending)) (hno : entry ∉ b.edges) :
    b.Exhausts fork pending := by
  intro item hitem
  obtain ⟨ht, hall⟩ := h item (List.mem_cons_of_mem _ hitem)
  refine ⟨ht, hall.imp_right fun hall next hnext => ?_⟩
  obtain ⟨o, ho⟩ := hall next hnext
  refine ⟨o, (List.mem_cons.mp ho).resolve_left fun he => hno ?_⟩
  obtain ⟨-, rfl⟩ := Prod.mk.inj he
  exact (mem_edgesAt.mp hnext).1

theorem not_mem_of_pending (b : Bay) (pending : List (Node × Nat × Edge)) :
    ∀ item ∈ pending, item.2 ∉ (b.removeBranches pending).2.edges := by
  induction b, pending using removeBranches.induct with
  | case1 b => simp
  | case2 b origin entry rest h smaller cuts last hrest ih =>
    rw [removeBranches, dif_pos h]
    have hsub := (removeBranches_sublist smaller
      (smaller.onward (entry.2.farEnd origin) ++ rest)).1.subset
    exact List.forall_mem_cons.mpr ⟨fun hin => (mem_without.mp (hsub hin)).2 rfl,
      fun item hitem => ih item (List.mem_append_right _ hitem)⟩
  | case3 b origin entry rest h ih =>
    rw [removeBranches, dif_neg h]
    have hsub := (removeBranches_sublist b rest).1.subset
    exact List.forall_mem_cons.mpr ⟨fun hin => h (hsub hin), ih⟩

theorem edgesAt_of_pending (h : ∀ next ∈ b.edgesAt y, ∃ o, (o, next) ∈ pending) :
    (b.removeBranches pending).2.edgesAt y = [] := by
  refine List.eq_nil_iff_forall_not_mem.mpr fun next hnext => ?_
  obtain ⟨hmem, ht⟩ := mem_edgesAt.mp hnext
  have hsub := (removeBranches_sublist b pending).1.subset
  obtain ⟨o, ho⟩ := h next (mem_edgesAt.mpr ⟨hsub hmem, ht⟩)
  exact not_mem_of_pending b pending _ ho hmem

/-- An edge that is taken towards a node takes all edges there with it. -/
theorem edgesAt_onward (hopen : b.Open y) (rest : List (Node × Nat × Edge)) :
    (b.removeBranches (b.onward y ++ rest)).2.edgesAt y = [] :=
  edgesAt_of_pending fun _ hnext =>
    ⟨y, List.mem_append_left _ (mem_onward.mpr ⟨hopen, rfl, hnext⟩)⟩

/-- Off the fork a node is left as it was, or without any edge. -/
theorem edgesAt_of_taken (hb : (b.edges.map (·.1)).Nodup) (h : b.Exhausts fork pending)
    (hentry : entry ∈ b.edges) (hno : entry ∉ (b.removeBranches pending).2.edges)
    (ht : entry.2.touches y = true) (hy : y ≠ fork) (hopen : b.Open y) :
    (b.removeBranches pending).2.edgesAt y = [] := by
  induction b, pending using removeBranches.induct with
  | case1 b =>
    rw [removeBranches] at hno
    exact absurd hentry hno
  | case2 b origin first rest hfirst smaller cuts last hrest ih =>
    by_cases hkey : entry.1 = first.1
    · obtain rfl := List.inj_on_of_nodup_map hb hentry hfirst hkey
      obtain ⟨htouch, hall⟩ := h _ List.mem_cons_self
      rcases (Edge.between_farEnd htouch).touches_iff.mp ht with rfl | rfl
      · exact edgesAt_of_pending (hall.resolve_left hy)
      · rw [removeBranches, dif_pos hfirst]
        exact edgesAt_onward (b := smaller) hopen rest
    · rw [removeBranches, dif_pos hfirst] at hno ⊢
      exact ih ((List.filter_sublist.map _).nodup hb) h.onward
        (mem_without.mpr ⟨hentry, hkey⟩) hno hopen
  | case3 b origin first rest hfirst ih =>
    rw [removeBranches, dif_neg hfirst] at hno ⊢
    exact ih hb (h.skip hfirst) hentry hno hopen

/-- A fork has no edge left if one is taken that was not to be taken from there. -/
theorem edgesAt_fork_of_taken (hb : (b.edges.map (·.1)).Nodup) (h : b.Exhausts fork pending)
    (hopen : b.Open fork) (hentry : entry ∈ b.edgesAt fork)
    (hno : entry ∉ (b.removeBranches pending).2.edges) (hpending : (fork, entry) ∉ pending) :
    (b.removeBranches pending).2.edgesAt fork = [] := by
  induction b, pending using removeBranches.induct with
  | case1 b =>
    rw [removeBranches] at hno
    exact absurd (mem_edgesAt.mp hentry).1 hno
  | case2 b origin first rest hfirst smaller cuts last hrest ih =>
    rw [removeBranches, dif_pos hfirst] at hno ⊢
    by_cases hfar : first.2.farEnd origin = fork
    · exact hfar ▸ edgesAt_onward (b := smaller) (hfar ▸ hopen) rest
    obtain ⟨hmem, ht⟩ := mem_edgesAt.mp hentry
    obtain ⟨hfresh, hrests⟩ := not_or.mp (mt List.mem_cons.mpr hpending)
    have hkey : entry.1 ≠ first.1 := by
      intro hkey
      obtain rfl := List.inj_on_of_nodup_map hb hmem hfirst hkey
      have htouch := (h _ List.mem_cons_self).1
      rcases (Edge.between_farEnd htouch).touches_iff.mp ht with he | he
      · exact hfresh (he ▸ rfl)
      · exact hfar he.symm
    refine ih ((List.filter_sublist.map _).nodup hb) h.onward hopen
      (mem_edgesAt.mpr ⟨mem_without.mpr ⟨hmem, hkey⟩, ht⟩) hno fun hin => ?_
    rcases List.mem_append.mp hin with hnext | hlater
    · exact hfar (mem_onward.mp hnext).2.1.symm
    · exact hrests hlater
  | case3 b origin first rest hfirst ih =>
    rw [removeBranches, dif_neg hfirst] at hno ⊢
    exact ih hb (h.skip hfirst) hopen hentry hno fun hin => hpending (List.mem_cons_of_mem _ hin)

/-- In a branch, what is around a node without edges has none either. -/
theorem edgesAt_of_behind (hb : (b.edges.map (·.1)).Nodup) (h : b.Exhausts fork pending)
    (hy : (b.removeBranches pending).2.edgesAt y = []) (hpath : b.Behind fork y z) :
    (b.removeBranches pending).2.edgesAt z = [] := by
  induction hpath with
  | refl => exact hy
  | tail _ hstep ih =>
    obtain ⟨⟨e, he, hends⟩, hne, hopen⟩ := hstep
    obtain ⟨entry, hentry, rfl⟩ := mem_links.mp he
    exact edgesAt_of_taken hb h hentry
      (not_mem_of_edgesAt_nil ih (hends.touches_iff.mpr (Or.inl rfl)))
      (hends.touches_iff.mpr (Or.inr rfl)) hne hopen

/-- A branch that is taken, and comes back by another edge, takes all at the fork. -/
theorem edgesAt_fork_of_loop (hroot : b.Rooted fork)
    (hpending : ∀ item ∈ pending, item.1 = fork ∧ item.2 ∈ b.edgesAt fork)
    {other : Nat × Edge} (hentry : (fork, entry) ∈ pending) (hother : other ∈ b.edgesAt fork)
    (hfresh : (fork, other) ∉ pending) (hopen : b.Open (entry.2.farEnd fork))
    (hpath : b.Behind fork (entry.2.farEnd fork) (other.2.farEnd fork)) :
    (b.removeBranches pending).2.edgesAt fork = [] := by
  obtain ⟨hmem, ht⟩ := mem_edgesAt.mp (hpending _ hentry).2
  obtain ⟨hmem', ht'⟩ := mem_edgesAt.mp hother
  have hall := exhausts_at_fork hpending
  have hfirst : (b.removeBranches pending).2.edgesAt (entry.2.farEnd fork) = [] :=
    edgesAt_of_taken hroot.numbered hall hmem (not_mem_of_pending b pending _ hentry)
      ((Edge.between_farEnd ht).touches_iff.mpr (Or.inr rfl))
      (farEnd_ne hroot.apart (hpending _ hentry).2) hopen
  have hlast := edgesAt_of_behind hroot.numbered hall hfirst hpath
  exact edgesAt_fork_of_taken hroot.numbered hall (hroot.open_of_mem hmem) hother
    (not_mem_of_edgesAt_nil hlast ((Edge.between_farEnd ht').touches_iff.mpr (Or.inr rfl))) hfresh

theorem removeBranches_append (b : Bay) (p q : List (Node × Nat × Edge)) :
    (b.removeBranches (p ++ q)).2 = ((b.removeBranches p).2.removeBranches q).2 := by
  induction b, p using removeBranches.induct with
  | case1 b =>
    rw [List.nil_append, removeBranches]
  | case2 b origin entry rest h smaller cuts last hrest ih =>
    rw [List.cons_append, removeBranches, dif_pos h, removeBranches, dif_pos h]
    rw [List.append_assoc] at ih
    exact ih
  | case3 b origin entry rest h ih =>
    rw [List.cons_append, removeBranches, dif_neg h, removeBranches, dif_neg h]
    exact ih

theorem Loops.edgesAt_fork (hroot : b.Rooted fork) (h : b.Loops fork) :
    (b.removeBranches (b.freeBranches fork)).2.edgesAt fork = [] := by
  obtain ⟨entry, hentry, other, hother, hne, hfree, hopen, hpath⟩ := h
  -- The branch is taken whole by the first of its two edges at the fork.
  have hprefix : ∀ {p q}, b.freeBranches fork = p ++ q →
      (b.removeBranches p).2.edgesAt fork = [] →
      (b.removeBranches (b.freeBranches fork)).2.edgesAt fork = [] := by
    intro p q hsplit hnil
    rw [hsplit, removeBranches_append]
    have hsub := (removeBranches_sublist (b.removeBranches p).2 q).1
    exact List.eq_nil_of_sublist_nil (hnil ▸ hsub.filter _)
  have hin : (fork, entry) ∈ b.freeBranches fork := mem_freeBranches.mpr ⟨rfl, hentry, hfree⟩
  obtain ⟨p, q, hsplit, hfresh⟩ := List.eq_append_cons_of_mem hin
  have hpending : ∀ item ∈ p ++ [(fork, entry)], item.1 = fork ∧ item.2 ∈ b.edgesAt fork := by
    intro item hitem
    have hall : item ∈ b.freeBranches fork := by
      rw [hsplit]
      exact (List.Sublist.append_left (List.singleton_sublist.mpr List.mem_cons_self) p).subset
        hitem
    exact (mem_freeBranches.mp hall).imp_right And.left
  by_cases hfirst : (fork, other) ∈ p
  · have hback := Reaches.symm hpath ⟨farEnd_ne hroot.apart hentry, hopen⟩
    have hopen' := (Reaches.entered hpath ⟨farEnd_ne hroot.apart hentry, hopen⟩).2
    exact hprefix hsplit (edgesAt_fork_of_loop hroot
      (fun item hitem => hpending item (List.mem_append_left _ hitem)) hfirst hentry hfresh hopen'
      hback)
  · refine hprefix (p := p ++ [(fork, entry)]) (q := q) (by simpa using hsplit)
      (edgesAt_fork_of_loop hroot hpending (by simp) hother ?_ hopen hpath)
    simp [hfirst, hne]

theorem removed_of_edgesAt (hb : (b.edges.map (·.1)).Nodup)
    (h : (b.removeBranches pending).2.edgesAt x = []) :
    ∀ entry ∈ b.edgesAt x, entry.2 ∈ removedEdges (b.removeBranches pending).1 := by
  intro entry hentry
  obtain ⟨hmem, ht⟩ := mem_edgesAt.mp hentry
  exact (removeBranches_rest b pending hb entry hmem).resolve_left (not_mem_of_edgesAt_nil h ht)

theorem removeBranches_sub_pruneFork (hown : ¬b.Shared fork) :
    removedEdges (b.removeBranches (b.freeBranches fork)).1 ⊆ removedEdges (b.pruneFork fork) := by
  rw [pruneFork_own hown]
  split
  · rw [removedEdges_append]
    exact List.subset_append_left _ _
  · exact List.Subset.refl _

theorem Loops.removes (hroot : b.Rooted fork) (hown : ¬b.Shared fork) (h : b.Loops fork)
    (hx : b.Open x) : ∀ entry ∈ b.edgesAt x, entry.2 ∈ removedEdges (b.pruneFork fork) := by
  intro entry hentry
  refine removeBranches_sub_pruneFork hown ?_
  have hfork := h.edgesAt_fork hroot
  by_cases hself : x = fork
  · exact removed_of_edgesAt hroot.numbered (hself ▸ hfork) entry hentry
  obtain ⟨hmem, ht⟩ := mem_edgesAt.mp hentry
  obtain ⟨first, hfirst, hopen, hpath⟩ := hroot.exists_branch hx hself (adjoins_farEnd hmem ht)
  have hall : b.Exhausts fork (b.freeBranches fork) := exhausts_at_fork fun item hitem =>
    (mem_freeBranches.mp hitem).imp_right And.left
  obtain ⟨hmem', ht'⟩ := mem_edgesAt.mp hfirst
  have hnear := edgesAt_of_taken hroot.numbered hall hmem' (not_mem_of_edgesAt_nil hfork ht')
    ((Edge.between_farEnd ht').touches_iff.mpr (Or.inr rfl)) (farEnd_ne hroot.apart hfirst) hopen
  exact removed_of_edgesAt hroot.numbered (edgesAt_of_behind hroot.numbered hall hnear hpath)
    entry hentry

theorem mem_removeChain {rest : List (Nat × Edge)} (h : b.edgesAt node = entry :: rest) :
    entry.2 ∈ removedEdges (b.removeChain node) := by
  rw [removeChain, h]
  dsimp only
  split <;> exact List.mem_cons_self

theorem length_left_le :
    ((b.removeBranches (b.freeBranches fork)).2.edgesAt fork).length ≤ b.servedBranches fork := by
  have hsub := (removeBranches_sublist b (b.freeBranches fork)).1
  have hserved : ∀ e ∈ (b.removeBranches (b.freeBranches fork)).2.edgesAt fork,
      (b.reach fork (e.2.farEnd fork)).equipment = true := by
    intro e he
    obtain ⟨hmem, ht⟩ := mem_edgesAt.mp he
    by_contra hfree
    have hin : (fork, e) ∈ b.freeBranches fork := mem_freeBranches.mpr
      ⟨rfl, mem_edgesAt.mpr ⟨hsub.subset hmem, ht⟩, Bool.eq_false_iff.mpr hfree⟩
    exact not_mem_of_pending b _ _ hin hmem
  rw [servedBranches, ← List.countP_eq_length.mpr hserved]
  exact (hsub.filter _).countP_le

/-- A fork with equipment in one branch at most loses all its edges. -/
theorem removes_of_served (hroot : b.Rooted fork) (hown : ¬b.Shared fork)
    (hfew : b.servedBranches fork ≤ 1) :
    ∀ entry ∈ b.edgesAt fork, entry.2 ∈ removedEdges (b.pruneFork fork) := by
  intro entry hentry
  by_cases hfree : (b.reach fork (entry.2.farEnd fork)).equipment = true
  · have hone : b.servedBranches fork = 1 :=
      Nat.le_antisymm hfew (List.countP_pos_iff.mpr ⟨entry, hentry, hfree⟩)
    have hkept := removeBranches_rest b (b.freeBranches fork) hroot.numbered
    rw [pruneFork_own hown, if_pos hone, removedEdges_append]
    refine List.mem_append.mpr
      ((hkept entry (mem_edgesAt.mp hentry).1).symm.imp_right fun hin => ?_)
    have hat := mem_edgesAt.mpr ⟨hin, (mem_edgesAt.mp hentry).2⟩
    obtain ⟨left, hleft⟩ := List.length_eq_one_iff.mp
      (Nat.le_antisymm (hone ▸ length_left_le) (List.length_pos_of_mem hat))
    rw [hleft, List.mem_singleton] at hat
    exact hat ▸ mem_removeChain hleft
  · refine removeBranches_sub_pruneFork hown ?_
    have hkept := removeBranches_rest b (b.freeBranches fork) hroot.numbered
    have hin : (fork, entry) ∈ b.freeBranches fork :=
      mem_freeBranches.mpr ⟨rfl, hentry, Bool.eq_false_iff.mpr hfree⟩
    exact (hkept entry (mem_edgesAt.mp hentry).1).resolve_left (not_mem_of_pending b _ _ hin)

theorem Strips.edgesAt_ne_nil (h : Strips x b node) : b.edgesAt x ≠ [] := by
  induction h with
  | chain hone => simp [hone]
  | onward hone _ ih =>
    obtain ⟨entry, hentry⟩ := List.exists_mem_of_ne_nil _ ih
    obtain ⟨hmem, ht⟩ := mem_edgesAt.mp hentry
    exact List.ne_nil_of_mem (mem_edgesAt.mpr ⟨(mem_without.mp hmem).1, ht⟩)
  | fork hmany _ _ =>
    intro hnil
    simp [hnil] at hmany
  | loop _ _ _ hx => exact hx

/-- A pruning that strips a node takes all the edges there. -/
theorem Strips.removes (h : Strips x b node) (hroot : b.Rooted node) (hx : b.Open x) :
    ∀ entry ∈ b.edgesAt x, entry.2 ∈ removedEdges (b.prune node) := by
  induction h with
  | chain hone =>
    intro entry hentry
    rw [hone, List.mem_singleton] at hentry
    subst hentry
    rw [prune, hone]
    exact List.mem_cons_self
  | @onward b node first hone hrest ih =>
    intro entry hentry
    rw [prune, hone]
    obtain ⟨hmem, ht⟩ := mem_edgesAt.mp hentry
    have hfirst : first ∈ b.edgesAt node := by simp [hone]
    by_cases hkey : entry.1 = first.1
    · obtain rfl := List.inj_on_of_nodup_map hroot.numbered hmem (mem_edgesAt.mp hfirst).1 hkey
      exact List.mem_cons_self
    · exact List.mem_cons_of_mem _ (ih (hroot.without hone) hx entry
        (mem_edgesAt.mpr ⟨mem_without.mpr ⟨hmem, hkey⟩, ht⟩))
  | fork hmany hown hfew =>
    rw [prune_of_fork hmany]
    exact removes_of_served hroot hown hfew
  | loop hmany hown hloop _ =>
    rw [prune_of_fork hmany]
    exact hloop.removes hroot hown hx

end Switchyard.Bay
