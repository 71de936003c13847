import Switchyard.Proofs.Withdrawal

namespace Switchyard

open Relation

section Paths

variable {α : Type} {R : α → α → Prop} {u v x y : α}

/-- A path between other nodes need not go through a node with a single neighbour. -/
theorem bypass (hto : ∀ z, R z v → z = u) (hfrom : ∀ z, R v z → z = u) (huv : u ≠ v)
    (h : ReflTransGen R x y) (hx : x ≠ v) (hy : y ≠ v) :
    ReflTransGen (fun a c => R a c ∧ a ≠ v ∧ c ≠ v) x y := by
  -- A path that comes to `v` turns back to `u`.
  have hall : ∀ z, ReflTransGen R x z →
      ReflTransGen (fun a c => R a c ∧ a ≠ v ∧ c ≠ v) x z ∧ z ≠ v ∨
        z = v ∧ ReflTransGen (fun a c => R a c ∧ a ≠ v ∧ c ≠ v) x u := by
    intro z hz
    induction hz with
    | refl => exact Or.inl ⟨.refl, hx⟩
    | @tail a c _ hac ih =>
      by_cases hc : c = v
      · subst hc
        obtain rfl := hto a hac
        exact Or.inr ⟨rfl, (ih.resolve_right fun hr => huv hr.1).1⟩
      · rcases ih with ⟨hpath, ha⟩ | ⟨rfl, hpath⟩
        · exact Or.inl ⟨hpath.tail ⟨hac, ha, hc⟩, hc⟩
        · obtain rfl := hfrom c hac
          exact Or.inl ⟨hpath, hc⟩
  exact ((hall y h).resolve_right fun hr => hy hr.1).1

end Paths

section Reaching

variable {es : List Edge} {enter : Node → Prop} {a c fork : Node}

theorem Reaches.symm (h : Reaches es enter a c) (ha : enter a) : Reaches es enter c a := by
  have hall : ∀ z, Reaches es enter a z → enter z ∧ Reaches es enter z a := by
    intro z hz
    induction hz with
    | refl => exact ⟨ha, .refl⟩
    | @tail y z _ hyz ih =>
      obtain ⟨⟨e, he, hends⟩, hz⟩ := hyz
      exact ⟨hz, ih.2.head ⟨⟨e, he, hends.symm⟩, ih.1⟩⟩
  exact (hall c h).2

theorem Reaches.entered (h : Reaches es enter a c) (ha : enter a) : enter c := by
  cases h with
  | refl => exact ha
  | tail _ hstep => exact hstep.2

theorem Reaches.inside (h : Reaches es enter a c) (ha : enter a) :
    ReflTransGen (fun x y => (∃ e ∈ es, e.Between x y) ∧ enter x ∧ enter y) a c := by
  induction h with
  | refl => exact .refl
  | tail hpath hstep ih => exact ih.tail ⟨hstep.1, Reaches.entered hpath ha, hstep.2⟩

/-- What is reached from a fork is reached from one of its neighbours without the fork. -/
theorem Reaches.leave (h : Reaches es enter fork a) (ha : a ≠ fork) :
    ∃ y, Passage es enter fork y ∧ y ≠ fork ∧ Reaches es (fun z => z ≠ fork ∧ enter z) y a := by
  have hall : ∀ z, Reaches es enter fork z → z = fork ∨
      ∃ y, Passage es enter fork y ∧ y ≠ fork ∧ Reaches es (fun z => z ≠ fork ∧ enter z) y z := by
    intro z hz
    induction hz with
    | refl => exact Or.inl rfl
    | @tail b z _ hbz ih =>
      by_cases hzf : z = fork
      · exact Or.inl hzf
      · rcases ih with rfl | ⟨y, hy, hyf, hpath⟩
        · exact Or.inr ⟨z, hbz, hzf, .refl⟩
        · exact Or.inr ⟨y, hy, hyf, hpath.tail ⟨hbz.1, hzf, hbz.2⟩⟩
  exact (hall a h).resolve_left ha

end Reaching

namespace Bay

variable {b : Bay} {fork first : Node}

/-- No busbar section is at the node. -/
abbrev Open (b : Bay) (node : Node) : Prop :=
  b.occupant node ≠ .rail

/-- The nodes that are reached from a node of a branch, without the fork and
without a busbar section on the way. -/
abbrev Behind (b : Bay) (fork : Node) : Node → Node → Prop :=
  Reaches b.links fun x => x ≠ fork ∧ b.Open x

theorem Reach.rail_note (r : Reach) (o : Occupant) :
    (r.note o).rail = (r.rail || decide (o = .rail)) := by
  cases o <;> simp [Reach.note]

theorem Reach.equipment_note (r : Reach) (o : Occupant) :
    (r.note o).equipment = (r.equipment || decide (o = .equipment)) := by
  cases o <;> simp [Reach.note]

theorem foldl_note (b : Bay) (fork : Node) (hops : List Hop) (seen : Reach) :
    ((hops.foldl (fun s h => if h.target = fork then s else s.note (b.occupant h.target))
        seen).rail = true ↔
      seen.rail = true ∨ ∃ h ∈ hops, h.target ≠ fork ∧ b.occupant h.target = .rail) ∧
    ((hops.foldl (fun s h => if h.target = fork then s else s.note (b.occupant h.target))
        seen).equipment = true ↔
      seen.equipment = true ∨ ∃ h ∈ hops, h.target ≠ fork ∧ b.occupant h.target = .equipment) := by
  induction hops generalizing seen with
  | nil => simp
  | cons h rest ih =>
    rw [List.foldl_cons]
    by_cases hf : h.target = fork
    · rw [if_pos hf]
      simpa [hf] using ih seen
    · rw [if_neg hf]
      obtain ⟨h1, h2⟩ := ih (seen.note (b.occupant h.target))
      rw [h1, h2, Reach.rail_note, Reach.equipment_note]
      simp [hf, or_assoc]

theorem reach_eq_fold (hfork : first ≠ fork) (hopen : b.Open first) :
    ∃ hops, Tour b.links (fun x => x ≠ fork ∧ b.Open x) first hops ∧
      b.reach fork first = hops.foldl
        (fun s h => if h.target = fork then s else s.note (b.occupant h.target))
        (Reach.note {} (b.occupant first)) := by
  let visit (seen : Reach) (h : Hop) : Verdict × Reach :=
    if h.target = fork then (.leave, seen)
    else (if b.occupant h.target = .rail then .leave else .onward, seen.note (b.occupant h.target))
  have hverdict : ∀ s h, (visit s h).1 =
      if h.target ≠ fork ∧ b.Open h.target then .onward else .leave := fun s h => by
    by_cases hf : h.target = fork
    · simp [visit, hf]
    · by_cases hr : b.occupant h.target = .rail <;> simp [visit, hf, hr, Open]
  obtain ⟨hops, htour, hfold⟩ := walk_tour visit (fun x => x ≠ fork ∧ b.Open x) hverdict b.links
    first (Reach.note {} (b.occupant first))
  refine ⟨hops, htour, ?_⟩
  have hvisit : (fun s h => (visit s h).2) =
      fun s (h : Hop) => if h.target = fork then s else s.note (b.occupant h.target) := by
    funext s h
    by_cases hf : h.target = fork <;> simp [visit, hf]
  rw [← hvisit, ← hfold]
  unfold reach
  dsimp only
  rw [if_neg (not_or.mpr ⟨hfork, hopen⟩)]
  rfl

/-- A branch has equipment if some of it is reached in it. -/
theorem equipment_reach_iff (hfork : first ≠ fork) (hopen : b.Open first) :
    (b.reach fork first).equipment = true ↔
      ∃ x, b.Behind fork first x ∧ b.occupant x = .equipment := by
  obtain ⟨hops, htour, hfold⟩ := reach_eq_fold hfork hopen
  rw [hfold, (b.foldl_note fork hops _).2, Reach.equipment_note]
  simp only [Bool.false_or, decide_eq_true_eq]
  constructor
  · rintro (hfirst | ⟨h, hh, hne, hoccupant⟩)
    · exact ⟨first, .refl, hfirst⟩
    · obtain ⟨he, halong⟩ := htour.along h hh
      refine ⟨h.target, (htour.reached h hh).tail ⟨⟨h.edge, he, halong.between⟩, hne, ?_⟩,
        hoccupant⟩
      simp [Open, hoccupant]
  · rintro ⟨x, hx, hoccupant⟩
    cases hx with
    | refl => exact Or.inl hoccupant
    | @tail a _ ha hstep =>
      obtain ⟨⟨e, he, hends⟩, hne, -⟩ := hstep
      obtain ⟨h, hh, rfl⟩ := htour.covers a ha e he (hends.touches_iff.mpr (Or.inl rfl))
      rcases (htour.along h hh).2.between.eq_or hends with ⟨-, rfl⟩ | ⟨rfl, -⟩
      · exact Or.inr ⟨h, hh, hne, hoccupant⟩
      · rcases htour.followed h hh with hstart | ⟨g, hg, htarget⟩
        · exact Or.inl (hstart ▸ hoccupant)
        · exact Or.inr ⟨g, hg, by rwa [htarget], by rwa [htarget]⟩

/-- A branch told to lead to a busbar section does lead to one. -/
theorem rail_of_reach (hfork : first ≠ fork) (hopen : b.Open first)
    (h : (b.reach fork first).rail = true) :
    ∃ a r, b.Behind fork first a ∧ (∃ e ∈ b.links, e.Between a r) ∧ b.occupant r = .rail := by
  obtain ⟨hops, htour, hfold⟩ := reach_eq_fold hfork hopen
  rw [hfold, (b.foldl_note fork hops _).1, Reach.rail_note] at h
  rcases h with hfirst | ⟨hop, hhop, -, hoccupant⟩
  · simp [hopen] at hfirst
  · obtain ⟨he, halong⟩ := htour.along hop hhop
    exact ⟨hop.source, hop.target, htour.reached hop hhop, ⟨hop.edge, he, halong.between⟩,
      hoccupant⟩

end Bay

end Switchyard
