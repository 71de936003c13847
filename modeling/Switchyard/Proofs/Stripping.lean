import Switchyard.Proofs.Branches

namespace Switchyard

open Relation

theorem removedEdges_append (cuts cuts' : List Cut) :
    removedEdges (cuts ++ cuts') = removedEdges cuts ++ removedEdges cuts' :=
  List.filterMap_append

namespace Bay

variable {b : Bay} {node x : Node} {entry : Nat × Edge}

/-- An edge joins the two nodes. -/
def Adjoins (b : Bay) (a c : Node) : Prop :=
  ∃ e ∈ b.links, e.Between a c

/-- The cuts remove an edge that joins the two nodes. -/
def Severs (cuts : List Cut) (a c : Node) : Prop :=
  ∃ d ∈ removedEdges cuts, d.Between a c

/-- What the cuts leave leads from the node to a busbar section. -/
def Feeds (b : Bay) (cuts : List Cut) (x : Node) : Prop :=
  ∃ r, b.occupant r = .rail ∧ ReflTransGen (fun a c => b.Adjoins a c ∧ ¬Severs cuts a c) x r

/-- A branch of the fork has equipment and no busbar section. -/
def Shared (b : Bay) (fork : Node) : Prop :=
  ∃ e ∈ b.edgesAt fork, (b.reach fork (e.2.farEnd fork)).equipment = true ∧
    (b.reach fork (e.2.farEnd fork)).rail = false

/-- A branch of the fork without equipment comes back to the fork. -/
def Loops (b : Bay) (fork : Node) : Prop :=
  ∃ e ∈ b.edgesAt fork, ∃ e' ∈ b.edgesAt fork, e' ≠ e ∧
    (b.reach fork (e.2.farEnd fork)).equipment = false ∧ b.Open (e.2.farEnd fork) ∧
      b.Behind fork (e.2.farEnd fork) (e'.2.farEnd fork)

/-- The number of branches of the fork that have equipment. -/
def servedBranches (b : Bay) (fork : Node) : Nat :=
  (b.edgesAt fork).countP fun e => (b.reach fork (e.2.farEnd fork)).equipment

/-- The ways in which pruning from a node takes all the edges at another one. -/
inductive Strips (x : Node) : Bay → Node → Prop where
  /-- The node is on the plain chain that is removed. -/
  | chain {b : Bay} {entry : Nat × Edge} (h : b.edgesAt x = [entry]) : Strips x b x
  /-- What follows on the chain strips the node. -/
  | onward {b : Bay} {node : Node} {entry : Nat × Edge} (h : b.edgesAt node = [entry])
    (hrest : Strips x (b.without entry.1) (entry.2.farEnd node)) : Strips x b node
  /-- The node is a fork that is not shared, with equipment in one branch at most. -/
  | fork {b : Bay} (hmany : 2 ≤ (b.edgesAt x).length) (hown : ¬b.Shared x)
    (hfew : b.servedBranches x ≤ 1) : Strips x b x
  /-- A branch that has no equipment comes back to a fork that is not shared. All that
  hangs there goes with it. -/
  | loop {b : Bay} {node : Node} (hmany : 2 ≤ (b.edgesAt node).length) (hown : ¬b.Shared node)
    (hloop : b.Loops node) (hx : b.edgesAt x ≠ []) : Strips x b node

/-- The edges are told apart by their numbers, none is from a node to itself, and
all lie around the node, which has no busbar section. -/
structure Rooted (b : Bay) (node : Node) : Prop where
  numbered : (b.edges.map (·.1)).Nodup
  apart : ∀ e ∈ b.links, e.node1 ≠ e.node2
  reached : ∀ e ∈ b.links, b.Open node ∧ ∃ a, Reaches b.links b.Open node a ∧ e.touches a = true

theorem Adjoins.symm {a c : Node} (h : b.Adjoins a c) : b.Adjoins c a := by
  obtain ⟨e, he, hends⟩ := h
  exact ⟨e, he, hends.symm⟩

theorem mem_edgesAt : entry ∈ b.edgesAt node ↔ entry ∈ b.edges ∧ entry.2.touches node = true :=
  List.mem_filter

theorem mem_links {e : Edge} : e ∈ b.links ↔ ∃ entry ∈ b.edges, entry.2 = e :=
  List.mem_map

theorem mem_without {k : Nat} : entry ∈ (b.without k).edges ↔ entry ∈ b.edges ∧ entry.1 ≠ k := by
  simp [without]

theorem links_without_subset (b : Bay) (k : Nat) : (b.without k).links ⊆ b.links := by
  intro e he
  obtain ⟨entry, hentry, rfl⟩ := mem_links.mp he
  exact mem_links.mpr ⟨entry, (mem_without.mp hentry).1, rfl⟩

theorem not_touches_of_single (h : b.edgesAt node = [entry]) {e : Edge}
    (he : e ∈ (b.without entry.1).links) : e.touches node = false := by
  obtain ⟨other, hother, rfl⟩ := mem_links.mp he
  obtain ⟨hmem, hne⟩ := mem_without.mp hother
  rw [Bool.eq_false_iff]
  intro ht
  have hat := mem_edgesAt.mpr ⟨hmem, ht⟩
  rw [h, List.mem_singleton] at hat
  exact hne (hat ▸ rfl)

theorem Adjoins.without (hb : (b.edges.map (·.1)).Nodup) (hentry : entry ∈ b.edgesAt node)
    {a c : Node} (h : b.Adjoins a c) (ha : a ≠ node) (hc : c ≠ node) :
    (b.without entry.1).Adjoins a c := by
  obtain ⟨e, he, hends⟩ := h
  obtain ⟨other, hother, rfl⟩ := mem_links.mp he
  obtain ⟨hmem, ht⟩ := mem_edgesAt.mp hentry
  refine ⟨other.2, mem_links.mpr ⟨other, mem_without.mpr ⟨hother, fun hkey => ?_⟩, rfl⟩, hends⟩
  rw [← List.inj_on_of_nodup_map hb hother hmem hkey] at ht
  rcases hends.touches_iff.mp ht with he | he
  · exact ha he.symm
  · exact hc he.symm

theorem Adjoins.of_without {k : Nat} {a c : Node} (h : (b.without k).Adjoins a c) :
    b.Adjoins a c := by
  obtain ⟨e, he, hends⟩ := h
  exact ⟨e, links_without_subset b k he, hends⟩

/-- No edge at the node is left to join it to another one. -/
theorem Adjoins.ne_of_single (hone : b.edgesAt node = [entry]) {a c : Node}
    (h : (b.without entry.1).Adjoins a c) : a ≠ node ∧ c ≠ node := by
  obtain ⟨e, he, hends⟩ := h
  have hno := not_touches_of_single hone he
  constructor
  · rintro rfl
    rw [hends.touches_iff.mpr (Or.inl rfl)] at hno
    cases hno
  · rintro rfl
    rw [hends.touches_iff.mpr (Or.inr rfl)] at hno
    cases hno

theorem eq_farEnd_of_single (h : b.edgesAt node = [entry]) {a : Node} (ha : b.Adjoins node a) :
    a = entry.2.farEnd node := by
  obtain ⟨e, he, hends⟩ := ha
  obtain ⟨other, hother, rfl⟩ := mem_links.mp he
  have hat := mem_edgesAt.mpr ⟨hother, hends.touches_iff.mpr (Or.inl rfl)⟩
  rw [h, List.mem_singleton] at hat
  exact hat ▸ hends.farEnd_eq.symm

theorem farEnd_ne (h : ∀ e ∈ b.links, e.node1 ≠ e.node2) (hentry : entry ∈ b.edgesAt node) :
    entry.2.farEnd node ≠ node := by
  obtain ⟨hmem, ht⟩ := mem_edgesAt.mp hentry
  have hapart := h _ (mem_links.mpr ⟨entry, hmem, rfl⟩)
  rw [Edge.touches_iff] at ht
  unfold Edge.farEnd
  split
  · grind
  · grind

namespace Rooted

theorem open_of_mem (h : b.Rooted node) (hentry : entry ∈ b.edges) : b.Open node :=
  (h.reached _ (mem_links.mpr ⟨entry, hentry, rfl⟩)).1

/-- Along a plain chain what is left lies around the next node. -/
theorem without (h : b.Rooted node) (hone : b.edgesAt node = [entry]) :
    (b.without entry.1).Rooted (entry.2.farEnd node) where
  numbered := (List.filter_sublist.map _).nodup h.numbered
  apart := fun e he => h.apart e (links_without_subset b _ he)
  reached := fun e he => by
    have hentry : entry ∈ b.edgesAt node := by simp [hone]
    obtain ⟨hmem, ht⟩ := mem_edgesAt.mp hentry
    obtain ⟨-, a, ha, hta⟩ := h.reached e (links_without_subset b _ he)
    have hne : a ≠ node := fun hx => by
      have hno := not_touches_of_single hone he
      rw [← hx, hta] at hno
      cases hno
    obtain ⟨y, ⟨hadjoins, hy⟩, hyn, hpath⟩ := ha.leave hne
    obtain rfl := eq_farEnd_of_single hone hadjoins
    refine ⟨hy, a, ReflTransGen.mono (fun p q hpq => ?_) _ _ (hpath.inside ⟨hyn, hy⟩), hta⟩
    obtain ⟨hjoined, ⟨hp, -⟩, hq, hopen⟩ := hpq
    exact ⟨Adjoins.without h.numbered hentry hjoined hp hq, hopen⟩

end Rooted

theorem not_severs_nil {a c : Node} : ¬Severs [] a c := by
  simp [Severs, removedEdges]

theorem severs_cons {c : Cut} {cuts : List Cut} {a d : Node} :
    Severs (c :: cuts) a d ↔ (∃ e, c.edge? = some e ∧ e.Between a d) ∨ Severs cuts a d := by
  cases c <;> simp [Severs, removedEdges, Cut.edge?]

/-- Cutting an edge at a node leaves the steps between other nodes. -/
theorem not_severs_cons {cuts : List Cut} {a c : Node} (hentry : entry ∈ b.edgesAt node)
    (hne : a ≠ node ∧ c ≠ node) (h : ¬Severs cuts a c) : ¬Severs (.remove entry.2 :: cuts) a c := by
  rw [severs_cons]
  rintro (⟨e, he, hends⟩ | hlater)
  · cases he
    rcases hends.touches_iff.mp (mem_edgesAt.mp hentry).2 with he | he
    · exact hne.1 he.symm
    · exact hne.2 he.symm
  · exact h hlater

theorem severs_append {cuts cuts' : List Cut} {a d : Node} :
    Severs (cuts ++ cuts') a d ↔ Severs cuts a d ∨ Severs cuts' a d := by
  simp [Severs, removedEdges_append, or_and_right, exists_or]

/-- What a node leads to, it leads to without the end of a plain chain. -/
theorem Feeds.without (h : b.Feeds [] x) (hroot : b.Rooted node)
    (hone : b.edgesAt node = [entry]) (hx : x ≠ node) : (b.without entry.1).Feeds [] x := by
  obtain ⟨r, hr, hpath⟩ := h
  have hentry : entry ∈ b.edgesAt node := by simp [hone]
  have hrn : r ≠ node := fun he => hroot.open_of_mem (mem_edgesAt.mp hentry).1 (he ▸ hr)
  refine ⟨r, hr, ReflTransGen.mono (fun a c hac => ?_) _ _
    (bypass (u := entry.2.farEnd node) (fun z hz => ?_) (fun z hz => ?_)
      (farEnd_ne hroot.apart hentry) hpath hx hrn)⟩
  · exact ⟨hac.1.1.without hroot.numbered hentry hac.2.1 hac.2.2, not_severs_nil⟩
  · exact eq_farEnd_of_single hone hz.1.symm
  · exact eq_farEnd_of_single hone hz.1

theorem Feeds.cons {cuts : List Cut} (h : (b.without entry.1).Feeds cuts x)
    (hone : b.edgesAt node = [entry]) : b.Feeds (.remove entry.2 :: cuts) x := by
  obtain ⟨r, hr, hpath⟩ := h
  have hentry : entry ∈ b.edgesAt node := by simp [hone]
  refine ⟨r, hr, ReflTransGen.mono (fun a c hac => ⟨hac.1.of_without, ?_⟩) _ _ hpath⟩
  exact not_severs_cons hentry (hac.1.ne_of_single hone) hac.2

/-- A chain taken from a node leaves paths that do not come there. Its nodes hold
nothing, and have no other edge when their turn comes. -/
theorem removeChain_leaves (b : Bay) (node : Node) (hb : (b.edges.map (·.1)).Nodup)
    (hapart : ∀ e ∈ b.links, e.node1 ≠ e.node2) {R : Node → Node → Prop}
    (hR : ∀ a c, R a c → b.Adjoins a c ∧ a ≠ node ∧ c ≠ node) {r : Node}
    (hx : b.occupant x ≠ .vacant) (hr : b.occupant r ≠ .vacant) (hpath : ReflTransGen R x r) :
    ReflTransGen (fun a c => R a c ∧ ¬Severs (b.removeChain node) a c) x r := by
  induction b, node using removeChain.induct generalizing R with
  | case1 b node h =>
    rw [removeChain, h]
    exact ReflTransGen.mono (fun a c hac => ⟨hac, not_severs_nil⟩) _ _ hpath
  | case2 b node entry tail h smaller far hcond ih =>
    have hentry : entry ∈ b.edgesAt node := h ▸ List.mem_cons_self
    obtain ⟨hlast, hvacant⟩ := hcond
    obtain ⟨last, hlast⟩ := List.length_eq_one_iff.mp hlast
    have hsmaller : ∀ a c, R a c → smaller.Adjoins a c := by
      intro a c hac
      obtain ⟨hjoined, ha, hc⟩ := hR a c hac
      exact hjoined.without hb hentry ha hc
    have hends : ∀ e ∈ smaller.links, e.node1 ≠ e.node2 := fun e he =>
      hapart e (links_without_subset b _ he)
    have hturn : last.2.farEnd far ≠ far := farEnd_ne hends (hlast ▸ List.mem_singleton_self last)
    have haround : ReflTransGen (fun a c => R a c ∧ a ≠ far ∧ c ≠ far) x r :=
      bypass (fun z hz => eq_farEnd_of_single hlast (hsmaller z far hz).symm)
        (fun z hz => eq_farEnd_of_single hlast (hsmaller far z hz)) hturn hpath
        (fun he => hx (he ▸ hvacant)) (fun he => hr (he ▸ hvacant))
    have hleft := ih ((List.filter_sublist.map _).nodup hb) hends
      (fun a c hac => ⟨hsmaller a c hac.1, hac.2⟩) hx hr haround
    rw [removeChain, h]
    dsimp only
    rw [if_pos ⟨hlast ▸ rfl, hvacant⟩]
    refine ReflTransGen.mono (fun a c hac => ⟨hac.1.1, ?_⟩) _ _ hleft
    exact not_severs_cons hentry (hR a c hac.1.1).2 hac.2
  | case3 b node entry tail h smaller far hcond =>
    have hentry : entry ∈ b.edgesAt node := h ▸ List.mem_cons_self
    rw [removeChain, h]
    dsimp only
    rw [if_neg hcond]
    exact ReflTransGen.mono
      (fun a c hac => ⟨hac, not_severs_cons hentry (hR a c hac).2 not_severs_nil⟩) _ _ hpath

end Bay

end Switchyard
