import Switchyard.Proofs.Stripping

namespace Switchyard

open Relation

theorem Reaches.trace {es : List Edge} {enter : Node → Prop} {a c : Node}
    (h : Reaches es enter a c) :
    ReflTransGen (fun x y => (∃ e ∈ es, e.Between x y) ∧ Reaches es enter a x ∧
      Reaches es enter a y) a c := by
  induction h with
  | refl => exact .refl
  | tail hpath hstep ih => exact ih.tail ⟨hstep.1, hpath, hpath.tail hstep⟩

namespace Bay

variable {b : Bay} {node fork first x : Node} {entry : Nat × Edge}

/-- The edge starts a branch of the fork that has no equipment. -/
def FreeAt (b : Bay) (fork : Node) (entry : Nat × Edge) : Prop :=
  entry ∈ b.edgesAt fork ∧ (b.reach fork (entry.2.farEnd fork)).equipment = false

/-- The node lies in a branch of the fork that has no equipment. -/
def Freed (b : Bay) (fork y : Node) : Prop :=
  ∃ entry, b.FreeAt fork entry ∧ b.Open (entry.2.farEnd fork) ∧
    b.Behind fork (entry.2.farEnd fork) y

/-- A step off the fork and off the branches without equipment. -/
structure Apart (b : Bay) (fork a c : Node) : Prop where
  adjoins : b.Adjoins a c
  left : a ≠ fork ∧ ¬b.Freed fork a
  right : c ≠ fork ∧ ¬b.Freed fork c

/-- An edge that the removal of branches is to take: a free one at the fork, or one
in a free branch that is cut off from the fork already. -/
def Due (b left : Bay) (fork : Node) (item : Node × Nat × Edge) : Prop :=
  item.1 = fork ∧ b.FreeAt fork item.2 ∨
    b.Freed fork item.1 ∧ item.2.2.touches item.1 = true ∧
      ∀ z, b.Behind fork item.1 z → ¬left.Adjoins z fork

theorem adjoins_farEnd (hentry : entry ∈ b.edges) (ht : entry.2.touches node = true) :
    b.Adjoins node (entry.2.farEnd node) :=
  ⟨entry.2, mem_links.mpr ⟨entry, hentry, rfl⟩, Edge.between_farEnd ht⟩

/-- Only a busbar section ends a branch at its first node. -/
theorem open_of_equipment (h : (b.reach fork first).equipment = true) : b.Open first := by
  intro hrail
  unfold reach at h
  rw [if_pos (Or.inr hrail), hrail] at h
  cases h

theorem Freed.open (hapart : ∀ e ∈ b.links, e.node1 ≠ e.node2) (h : b.Freed fork x) :
    x ≠ fork ∧ b.Open x := by
  obtain ⟨entry, hfree, hopen, hx⟩ := h
  exact Reaches.entered hx ⟨farEnd_ne hapart hfree.1, hopen⟩

/-- What a branch with equipment has is in no branch without. -/
theorem not_freed_of_equipment (hapart : ∀ e ∈ b.links, e.node1 ≠ e.node2)
    (hfirst : first ≠ fork) (h : (b.reach fork first).equipment = true)
    (hx : b.Behind fork first x) : ¬b.Freed fork x := by
  rintro ⟨entry, ⟨hentry, hnone⟩, hopen, hfree⟩
  have hfork := farEnd_ne hapart hentry
  have hback := Reaches.symm hx ⟨hfirst, open_of_equipment h⟩
  obtain ⟨y, hy, hequipment⟩ := (equipment_reach_iff hfirst (open_of_equipment h)).mp h
  have hall : (b.reach fork (entry.2.farEnd fork)).equipment = true :=
    (equipment_reach_iff hfork hopen).mpr ⟨y, (hfree.trans hback).trans hy, hequipment⟩
  rw [hnone] at hall
  cases hall

/-- What a branch with equipment has is led to a busbar section inside it, if no
branch is shared. -/
theorem exists_apart_path (hapart : ∀ e ∈ b.links, e.node1 ≠ e.node2) (hfork : b.Open fork)
    (hown : ¬b.Shared fork) (hentry : entry ∈ b.edgesAt fork)
    (h : (b.reach fork (entry.2.farEnd fork)).equipment = true)
    (hx : b.Behind fork (entry.2.farEnd fork) x) :
    ∃ r, b.occupant r = .rail ∧ ReflTransGen (b.Apart fork) x r := by
  have hfirst := farEnd_ne hapart hentry
  have hopen := open_of_equipment h
  have hrail : (b.reach fork (entry.2.farEnd fork)).rail = true := by
    by_contra hno
    exact hown ⟨entry, hentry, h, Bool.eq_false_iff.mpr hno⟩
  obtain ⟨a, r, ha, hlast, hr⟩ := rail_of_reach hfirst hopen hrail
  have hoff : ∀ z, b.Behind fork (entry.2.farEnd fork) z → z ≠ fork ∧ ¬b.Freed fork z :=
    fun z hz => ⟨(Reaches.entered hz ⟨hfirst, hopen⟩).1, not_freed_of_equipment hapart hfirst h hz⟩
  have hpath : b.Behind fork x a := (Reaches.symm hx ⟨hfirst, hopen⟩).trans ha
  refine ⟨r, hr, (ReflTransGen.mono (fun p q hpq => ?_) _ _ hpath.trace).tail ?_⟩
  · obtain ⟨hjoined, hp, hq⟩ := hpq
    exact ⟨hjoined, hoff p (hx.trans hp), hoff q (hx.trans hq)⟩
  · exact ⟨hlast, hoff a ha, fun he => hfork (he ▸ hr), fun hfreed => (hfreed.open hapart).2 hr⟩

/-- Past a free edge at a fork that no branch comes back to, the branch is cut off
from the fork. -/
theorem Due.past_fork (hloops : ¬b.Loops fork) {left : Bay} (hsub : left.edges ⊆ b.edges)
    (hfree : b.FreeAt fork entry)
    (hopen : b.Open (entry.2.farEnd fork)) {next : Nat × Edge}
    (hnext : next ∈ (left.without entry.1).edgesAt (entry.2.farEnd fork)) :
    b.Due (left.without entry.1) fork (entry.2.farEnd fork, next) := by
  refine Or.inr ⟨⟨entry, hfree, hopen, .refl⟩, (mem_edgesAt.mp hnext).2, ?_⟩
  rintro z hz ⟨e, he, hends⟩
  obtain ⟨other, hother, rfl⟩ := mem_links.mp he
  obtain ⟨hmem, hne⟩ := mem_without.mp hother
  have hat : other ∈ b.edgesAt fork :=
    mem_edgesAt.mpr ⟨hsub hmem, hends.touches_iff.mpr (Or.inr rfl)⟩
  refine hloops ⟨entry, hfree.1, other, hat, fun he => hne (he ▸ rfl), hfree.2, hopen, ?_⟩
  rwa [hends.symm.farEnd_eq]

theorem Due.past_freed {left : Bay} (hsub : left.edges ⊆ b.edges) (hnode : b.Freed fork node)
    (hentry : entry ∈ left.edges) (ht : entry.2.touches node = true)
    (hsealed : ∀ z, b.Behind fork node z → ¬left.Adjoins z fork)
    (hopen : b.Open (entry.2.farEnd node)) {next : Nat × Edge}
    (hnext : next ∈ (left.without entry.1).edgesAt (entry.2.farEnd node)) :
    b.Due (left.without entry.1) fork (entry.2.farEnd node, next) := by
  have hfar : entry.2.farEnd node ≠ fork := fun he =>
    hsealed node .refl (he ▸ adjoins_farEnd hentry ht)
  have hstep : b.Behind fork node (entry.2.farEnd node) :=
    .single ⟨adjoins_farEnd (hsub hentry) ht, hfar, hopen⟩
  obtain ⟨start, hfree, hstart, hbehind⟩ := hnode
  exact Or.inr ⟨⟨start, hfree, hstart, hbehind.trans hstep⟩, (mem_edgesAt.mp hnext).2,
    fun z hz hjoined => hsealed z (hstep.trans hz) hjoined.of_without⟩

theorem Due.without {left : Bay} {item : Node × Nat × Edge} (h : b.Due left fork item) (k : Nat) :
    b.Due (left.without k) fork item := by
  rcases h with hfree | ⟨hnode, ht, hsealed⟩
  · exact Or.inl hfree
  · exact Or.inr ⟨hnode, ht, fun z hz hjoined => hsealed z hz hjoined.of_without⟩

theorem mem_onward {item : Node × Nat × Edge} :
    item ∈ b.onward node ↔ b.Open node ∧ item.1 = node ∧ item.2 ∈ b.edgesAt node := by
  obtain ⟨o, entry⟩ := item
  unfold Bay.onward
  split
  next hrail => simp [hrail]
  next hrail =>
    simp only [List.mem_map, Prod.mk.injEq]
    constructor
    · rintro ⟨e, he, rfl, rfl⟩
      exact ⟨hrail, rfl, he⟩
    · rintro ⟨-, rfl, he⟩
      exact ⟨entry, he, rfl, rfl⟩

theorem Due.onward {left : Bay} (hloops : ¬b.Loops fork) (hsub : left.edges ⊆ b.edges)
    (hoccupant : left.occupant = b.occupant) (h : b.Due left fork (node, entry))
    (hentry : entry ∈ left.edges) :
    ∀ item ∈ (left.without entry.1).onward (entry.2.farEnd node),
      b.Due (left.without entry.1) fork item := by
  rintro ⟨o, next⟩ hitem
  obtain ⟨hrail, rfl, hnext⟩ := mem_onward.mp hitem
  have hopen : b.Open (entry.2.farEnd node) := fun he => hrail ((congrFun hoccupant _).trans he)
  rcases h with ⟨rfl, hfree⟩ | ⟨hnode, ht, hsealed⟩
  · exact past_fork hloops hsub hfree hopen hnext
  · exact past_freed hsub hnode hentry ht hsealed hopen hnext

/-- The removal of branches takes free edges at the fork, and edges in free branches. -/
theorem removeBranches_takes (hloops : ¬b.Loops fork) (left : Bay)
    (pending : List (Node × Nat × Edge)) (hsub : left.edges ⊆ b.edges)
    (hoccupant : left.occupant = b.occupant) (hdue : ∀ item ∈ pending, b.Due left fork item) :
    ∀ d ∈ removedEdges (left.removeBranches pending).1,
      (∃ entry, b.FreeAt fork entry ∧ entry.2 = d) ∨ ∃ y, b.Freed fork y ∧ d.touches y = true := by
  induction left, pending using removeBranches.induct with
  | case1 left => simp [removeBranches, removedEdges]
  | case2 left origin entry rest h smaller cuts last hrest ih =>
    obtain ⟨hfirst, hlater⟩ := List.forall_mem_cons.mp hdue
    rw [removeBranches, dif_pos h]
    refine List.forall_mem_cons.mpr ⟨?_, ih (fun e he => hsub (mem_without.mp he).1) hoccupant ?_⟩
    · rcases hfirst with ⟨-, hfree⟩ | ⟨hnode, ht, -⟩
      · exact Or.inl ⟨entry, hfree, rfl⟩
      · exact Or.inr ⟨origin, hnode, ht⟩
    · intro item hitem
      rcases List.mem_append.mp hitem with hnext | hother
      · exact hfirst.onward hloops hsub hoccupant h item hnext
      · exact (hlater item hother).without entry.1
  | case3 left origin entry rest h ih =>
    rw [removeBranches, dif_neg h]
    exact ih hsub hoccupant (List.forall_mem_cons.mp hdue).2

theorem removeBranches_sublist (b : Bay) (pending : List (Node × Nat × Edge)) :
    (b.removeBranches pending).2.edges.Sublist b.edges ∧
      (b.removeBranches pending).2.occupant = b.occupant := by
  induction b, pending using removeBranches.induct with
  | case1 b =>
    rw [removeBranches]
    exact ⟨List.Sublist.refl _, rfl⟩
  | case2 b origin entry rest h smaller cuts last hrest ih =>
    rw [removeBranches, dif_pos h]
    exact ih.imp_left fun hsub => hsub.trans List.filter_sublist
  | case3 b origin entry rest h ih =>
    rw [removeBranches, dif_neg h]
    exact ih

theorem removeBranches_rest (b : Bay) (pending : List (Node × Nat × Edge))
    (hb : (b.edges.map (·.1)).Nodup) : ∀ entry ∈ b.edges,
      entry ∈ (b.removeBranches pending).2.edges ∨
        entry.2 ∈ removedEdges (b.removeBranches pending).1 := by
  induction b, pending using removeBranches.induct with
  | case1 b =>
    rw [removeBranches]
    exact fun _ he => Or.inl he
  | case2 b origin entry rest h smaller cuts last hrest ih =>
    rw [removeBranches, dif_pos h]
    intro other hother
    by_cases hkey : other.1 = entry.1
    · obtain rfl := List.inj_on_of_nodup_map hb hother h hkey
      exact Or.inr List.mem_cons_self
    · have hkept := ih ((List.filter_sublist.map _).nodup hb)
      exact (hkept other (mem_without.mpr ⟨hother, hkey⟩)).imp_right (List.mem_cons_of_mem _)
  | case3 b origin entry rest h ih =>
    rw [removeBranches, dif_neg h]
    exact ih hb

/-- The edges at a fork that start branches without equipment, to be taken from there. -/
def freeBranches (b : Bay) (fork : Node) : List (Node × Nat × Edge) :=
  ((b.edgesAt fork).filter fun e => !(b.reach fork (e.2.farEnd fork)).equipment).map (fork, ·)

theorem pruneFork_shared (h : b.Shared fork) : b.pruneFork fork = [.stopAt fork] := by
  obtain ⟨e, he, hequipment, hrail⟩ := h
  unfold pruneFork
  dsimp only
  rw [if_pos]
  exact List.any_eq_true.mpr ⟨_, List.mem_map_of_mem he, by simp [hequipment, hrail]⟩

theorem pruneFork_own (h : ¬b.Shared fork) :
    b.pruneFork fork =
      if b.servedBranches fork = 1 then
        (b.removeBranches (b.freeBranches fork)).1 ++
          (b.removeBranches (b.freeBranches fork)).2.removeChain fork
      else (b.removeBranches (b.freeBranches fork)).1 := by
  unfold pruneFork
  dsimp only
  rw [if_neg]
  · simp only [List.filter_map, List.map_map, List.length_map, servedBranches,
      List.countP_eq_length_filter]
    rfl
  · intro hany
    obtain ⟨_, hbranch, hshared⟩ := List.any_eq_true.mp hany
    obtain ⟨e, he, rfl⟩ := List.mem_map.mp hbranch
    exact h ⟨e, he, by simpa using hshared⟩

theorem mem_freeBranches {item : Node × Nat × Edge} :
    item ∈ b.freeBranches fork ↔ item.1 = fork ∧ b.FreeAt fork item.2 := by
  obtain ⟨o, entry⟩ := item
  simp only [freeBranches, List.mem_map, List.mem_filter, Prod.mk.injEq, FreeAt,
    Bool.not_eq_true']
  constructor
  · rintro ⟨e, he, rfl, rfl⟩
    exact ⟨rfl, he⟩
  · rintro ⟨rfl, he⟩
    exact ⟨entry, he, rfl, rfl⟩

theorem freeBranches_due : ∀ item ∈ b.freeBranches fork, b.Due b fork item :=
  fun _ hitem => Or.inl (mem_freeBranches.mp hitem)

theorem Apart.not_severs {a c : Node} {cuts : List Cut} (h : b.Apart fork a c)
    (hcuts : ∀ d ∈ removedEdges cuts,
      (∃ entry, b.FreeAt fork entry ∧ entry.2 = d) ∨ ∃ y, b.Freed fork y ∧ d.touches y = true) :
    ¬Severs cuts a c := by
  rintro ⟨d, hd, hends⟩
  rcases hcuts d hd with ⟨entry, hfree, rfl⟩ | ⟨y, hy, ht⟩
  · rcases hends.touches_iff.mp (mem_edgesAt.mp hfree.1).2 with he | he
    · exact h.left.1 he.symm
    · exact h.right.1 he.symm
  · rcases hends.touches_iff.mp ht with rfl | rfl
    · exact h.left.2 hy
    · exact h.right.2 hy

/-- Pruning a fork leaves the paths apart from its free branches. -/
theorem apart_pruneFork (hroot : b.Rooted fork) (hown : ¬b.Shared fork) (hloops : ¬b.Loops fork)
    {r : Node} (hx : b.occupant x ≠ .vacant) (hr : b.occupant r ≠ .vacant)
    (hpath : ReflTransGen (b.Apart fork) x r) :
    ReflTransGen (fun a c => b.Adjoins a c ∧ ¬Severs (b.pruneFork fork) a c) x r := by
  obtain ⟨hsub, hoccupant⟩ := b.removeBranches_sublist (b.freeBranches fork)
  have hkept := b.removeBranches_rest (b.freeBranches fork) hroot.numbered
  have htaken := removeBranches_takes hloops b (b.freeBranches fork) (List.Subset.refl _) rfl
    freeBranches_due
  rw [pruneFork_own hown]
  split
  · have hrest : ∀ a c, b.Apart fork a c →
        (b.removeBranches (b.freeBranches fork)).2.Adjoins a c ∧ a ≠ fork ∧ c ≠ fork := by
      intro a c hac
      obtain ⟨e, he, hends⟩ := hac.adjoins
      obtain ⟨entry, hentry, rfl⟩ := mem_links.mp he
      have hleft := (hkept entry hentry).resolve_right fun hcut =>
        hac.not_severs htaken ⟨_, hcut, hends⟩
      exact ⟨⟨_, mem_links.mpr ⟨entry, hleft, rfl⟩, hends⟩, hac.left.1, hac.right.1⟩
    have hchain := removeChain_leaves _ fork ((hsub.map _).nodup hroot.numbered)
      (fun e he => hroot.apart e ((hsub.map _).subset he)) hrest (hoccupant ▸ hx) (hoccupant ▸ hr)
      hpath
    refine ReflTransGen.mono (fun a c hac => ⟨hac.1.adjoins, ?_⟩) _ _ hchain
    rw [severs_append]
    exact not_or.mpr ⟨hac.1.not_severs htaken, hac.2⟩
  · exact ReflTransGen.mono (fun a c hac => ⟨hac.adjoins, hac.not_severs htaken⟩) _ _ hpath

theorem Feeds.adjoins (h : b.Feeds [] x) (hx : b.Open x) : ∃ z, b.Adjoins x z := by
  obtain ⟨r, hr, hpath⟩ := h
  rcases hpath.cases_head with rfl | ⟨z, hz, -⟩
  · exact absurd hr hx
  · exact ⟨z, hz.1⟩

theorem Adjoins.edgesAt_ne_nil {z : Node} (h : b.Adjoins x z) : b.edgesAt x ≠ [] := by
  obtain ⟨e, he, hends⟩ := h
  obtain ⟨entry, hentry, rfl⟩ := mem_links.mp he
  exact List.ne_nil_of_mem (mem_edgesAt.mpr ⟨hentry, hends.touches_iff.mpr (Or.inl rfl)⟩)

/-- What lies around a fork is in one of its branches. -/
theorem Rooted.exists_branch (hroot : b.Rooted fork) (hx : b.Open x) (hne : x ≠ fork) {z : Node}
    (h : b.Adjoins x z) :
    ∃ entry ∈ b.edgesAt fork, b.Open (entry.2.farEnd fork) ∧
      b.Behind fork (entry.2.farEnd fork) x := by
  obtain ⟨e, he, hends⟩ := h
  obtain ⟨-, a, ha, hta⟩ := hroot.reached e he
  have hpath : Reaches b.links b.Open fork x := by
    rcases hends.touches_iff.mp hta with rfl | rfl
    · exact ha
    · exact ha.tail ⟨⟨e, he, hends.symm⟩, hx⟩
  obtain ⟨y, ⟨⟨e, he, hends⟩, hy⟩, -, hbehind⟩ := hpath.leave hne
  obtain ⟨entry, hentry, rfl⟩ := mem_links.mp he
  refine ⟨entry, mem_edgesAt.mpr ⟨hentry, hends.touches_iff.mpr (Or.inl rfl)⟩, ?_⟩
  rw [hends.farEnd_eq]
  exact ⟨hy, hbehind⟩

/-- The step from a fork into a branch with equipment is not cut with the free branches. -/
theorem not_severs_into (hroot : b.Rooted fork) (hloops : ¬b.Loops fork)
    (hentry : entry ∈ b.edgesAt fork)
    (h : (b.reach fork (entry.2.farEnd fork)).equipment = true) :
    ¬Severs (b.removeBranches (b.freeBranches fork)).1 fork (entry.2.farEnd fork) := by
  rintro ⟨d, hd, hends⟩
  rcases removeBranches_takes hloops b (b.freeBranches fork) (List.Subset.refl _) rfl
    freeBranches_due d hd with ⟨other, hfree, rfl⟩ | ⟨y, hy, ht⟩
  · have hnone := hfree.2
    rw [hends.farEnd_eq, h] at hnone
    cases hnone
  · rcases hends.touches_iff.mp ht with rfl | rfl
    · exact (hy.open hroot.apart).1 rfl
    · exact not_freed_of_equipment hroot.apart (farEnd_ne hroot.apart hentry) h .refl hy

/-- A fork that is not stripped keeps the equipment around it on a busbar section. -/
theorem feeds_pruneFork (hroot : b.Rooted fork) (hx : b.occupant x = .equipment)
    (hmany : 2 ≤ (b.edgesAt fork).length) (hstrip : ¬Strips x b fork) (h : b.Feeds [] x) :
    b.Feeds (b.pruneFork fork) x := by
  have hopen : b.Open x := fun hrail => by
    rw [hx] at hrail
    cases hrail
  obtain ⟨z, hz⟩ := h.adjoins hopen
  by_cases hown : b.Shared fork
  · rw [pruneFork_shared hown]
    exact h
  have hloops : ¬b.Loops fork := fun hloop => hstrip (.loop hmany hown hloop hz.edgesAt_ne_nil)
  by_cases hself : x = fork
  · subst hself
    have hserved : 1 < b.servedBranches x :=
      Nat.lt_of_not_le fun hfew => hstrip (.fork hmany hown hfew)
    obtain ⟨entry, hentry, hequipment⟩ := List.countP_pos_iff.mp (Nat.zero_lt_of_lt hserved)
    obtain ⟨r, hr, hpath⟩ := exists_apart_path hroot.apart hopen hown hentry hequipment .refl
    have htaken := removeBranches_takes hloops b (b.freeBranches x) (List.Subset.refl _) rfl
      freeBranches_due
    rw [pruneFork_own hown, if_neg (Nat.ne_of_gt hserved)]
    refine ⟨r, hr, (ReflTransGen.mono (fun a c hac => ?_) _ _ hpath).head
      ⟨adjoins_farEnd (mem_edgesAt.mp hentry).1 (mem_edgesAt.mp hentry).2,
        not_severs_into hroot hloops hentry hequipment⟩⟩
    exact ⟨hac.adjoins, hac.not_severs htaken⟩
  · obtain ⟨entry, hentry, hfar, hbehind⟩ := hroot.exists_branch hopen hself hz
    have hequipment : (b.reach fork (entry.2.farEnd fork)).equipment = true :=
      (equipment_reach_iff (farEnd_ne hroot.apart hentry) hfar).mpr ⟨x, hbehind, hx⟩
    obtain ⟨r, hr, hpath⟩ := exists_apart_path hroot.apart
      (hroot.open_of_mem (mem_edgesAt.mp hentry).1) hown hentry hequipment hbehind
    exact ⟨r, hr, apart_pruneFork hroot hown hloops (by simp [hx]) (by simp [hr]) hpath⟩

theorem prune_of_fork (h : 2 ≤ (b.edgesAt fork).length) : b.prune fork = b.pruneFork fork := by
  rw [prune]
  split
  next hnil => simp [hnil] at h
  next hone => simp [hone] at h
  next => rfl

/-- Pruning keeps equipment that it does not strip on a busbar section. -/
theorem feeds_prune (b : Bay) (node : Node) (hroot : b.Rooted node)
    (hx : b.occupant x = .equipment) (hstrip : ¬Strips x b node) (h : b.Feeds [] x) :
    b.Feeds (b.prune node) x := by
  induction b, node using prune.induct with
  | case1 b node hnil =>
    rw [prune, hnil]
    exact h
  | case2 b node entry hone ih =>
    have hne : x ≠ node := fun he => hstrip (he ▸ .chain (he ▸ hone))
    have hrest := ih (hroot.without hone) hx (fun hlater => hstrip (.onward hone hlater))
      (h.without hroot hone hne)
    rw [prune, hone]
    exact hrest.cons hone
  | case3 b node hnil hsingle =>
    have hmany : 2 ≤ (b.edgesAt node).length := by
      rcases hlist : b.edgesAt node with _ | ⟨entry, _ | ⟨second, rest⟩⟩
      · exact absurd hlist hnil
      · exact absurd hlist (hsingle entry)
      · simp
    rw [prune_of_fork hmany]
    exact feeds_pruneFork hroot hx hmany hstrip h

end Bay

end Switchyard
