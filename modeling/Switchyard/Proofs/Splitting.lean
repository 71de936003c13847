import Switchyard.LineWork
import Switchyard.Proofs.Replacing

namespace Switchyard

open Std Network

/-- Why two lines with ends of their own cannot be created where there is room for
all of those: an old end and a new one are at one node, or something of the kinds
`K` has the id of a line. -/
inductive SplitFault (K : ObjectKind → Prop) (old new : List Terminal) (ids : Halves String) :
    Fault → Prop
  | shared {x : Terminal} {node : Node} (hold : x ∈ old) (hnew : x ∈ new)
    (hnode : x.node? = some node) : SplitFault K old new ids (.nodeShared node x.voltageLevel)
  | taken {x : Terminal} {node : Node} (hold : x ∈ old) (hnew : x ∈ new)
    (hnode : x.node? = some node) :
    SplitFault K old new ids (.nodeTaken node x.voltageLevel ids.first)
  | idTaken {network : String} {kind : ObjectKind} {id : String}
    (hid : id = ids.first ∨ id = ids.second) (hkind : K kind) :
    SplitFault K old new ids (.idTaken network kind id)

namespace Run

variable {K : ObjectKind → Prop} {C D : Set Connectable} {n : Network} {s t : Session}
  {d d1 d2 : BranchDraft} {a b p q : Terminal} {vl id : String}

/-- The first of two lines is refused only for its id, or if it is to go from a
node to the same one. -/
theorem fails_createFirst (h : Replaced K C ∅ n s.network) (h1 : d1.terminal1 = some a)
    (h2 : d1.terminal2 = some p) (ha : s.network.Free a) (hp : s.network.Free p)
    (hid : d1.id ∈ n.index → ∃ c ∈ C, c.id = d1.id) :
    (createLine d1).Fails s fun f _ => SplitFault K [a, b] [p, q] ⟨d1.id, d2.id⟩ f := by
  refine (createLine_fails h.coherent h1 h2).mono fun f t hcause => ?_
  rcases hcause with ⟨x, hx, hrefused⟩ | ⟨rfl, node, hnode, rfl⟩ | ⟨-, e, he, rfl⟩
  · refine absurd ?_ (Edit.checkTerminal_error hrefused).1
    simp only [List.mem_cons, List.not_mem_nil, or_false] at hx
    rcases hx with rfl | rfl
    · exact ha
    · exact hp
  · exact .shared (by simp) (by simp) hnode
  · exact .idTaken (Or.inl rfl) (h.kind_of_index hid (by simp) he)

/-- The second one is refused for its id, or for a node that the first one holds or
that both its ends are to be at. -/
theorem fails_createSecond (h : Replaced K C ∅ n s.network) (h1 : d1.terminal1 = some a)
    (h2 : d1.terminal2 = some p) (h1' : d2.terminal1 = some q) (h2' : d2.terminal2 = some b)
    (hq : s.network.Free q) (hb : s.network.Free b) (hab : b.Apart a) (hpq : q.Apart p)
    (hid : d2.id ∈ n.index → ∃ c ∈ C, c.id = d2.id) (hne : d1.id ≠ d2.id)
    (hfirst : createLine d1 s = .ok d1.id t) :
    (createLine d2).Fails t fun f _ => SplitFault K [a, b] [p, q] ⟨d1.id, d2.id⟩ f := by
  obtain ⟨ht, hfit⟩ := refitted_createLine (K := K) h.coherent h1 h2 hfirst
  have hmade := replaced_createLine h h1 h2 hfirst
  have hheld : ∀ x ∈ [q, b], s.network.Free x → ∀ f,
      Edit.checkTerminal x t.network = .error f t.network →
      SplitFault K [a, b] [p, q] ⟨d1.id, d2.id⟩ f := by
    intro x hx hfree f hrefused
    obtain ⟨hnot, htaken⟩ := Edit.checkTerminal_error hrefused
    obtain ⟨c, rfl, side, node, hside, hnode, hholds⟩ :=
      (hfit.free_or_held h.coherent ht hfree).resolve_left hnot
    have hsome : x.node?.isSome := by rw [hnode, Option.isSome_some]
    have hends : x = a ∨ x = p := by
      simp only [Connectable.terminals, BranchDraft.branch, List.mem_cons, Prod.mk.injEq,
        List.not_mem_nil, or_false] at hside
      exact hside.imp And.right And.right
    have hin : x ∈ [a, b] ∧ x ∈ [p, q] := by
      simp only [List.mem_cons, List.not_mem_nil, or_false] at hx ⊢
      rcases hx with rfl | rfl <;> rcases hends with rfl | rfl
      · exact ⟨Or.inl rfl, Or.inr rfl⟩
      · exact absurd rfl (hpq hsome)
      · exact absurd rfl (hab hsome)
      · exact ⟨Or.inr rfl, Or.inl rfl⟩
    rw [htaken node _ hnode hholds]
    exact .taken hin.1 hin.2 hnode
  refine (createLine_fails ht h1' h2').mono fun f u hcause => ?_
  rcases hcause with ⟨x, hx, hrefused⟩ | ⟨rfl, node, hnode, rfl⟩ | ⟨-, e, he, rfl⟩
  · have hfree : s.network.Free x := by
      simp only [List.mem_cons, List.not_mem_nil, or_false] at hx
      rcases hx with rfl | rfl
      · exact hq
      · exact hb
    exact hheld x hx hfree f hrefused
  · exact .shared (by simp) (by simp) hnode
  · refine .idTaken (Or.inr rfl) (hmade.kind_of_index hid ?_ he)
    rintro c (rfl | hc)
    · exact hne
    · cases hc

/-- Two lines are created where there is room for their ends, if no old end is at
the node of a new one and their ids are free. -/
theorem Fails.createHalves_bind (h : Replaced K C ∅ n s.network) (h1 : d1.terminal1 = some a)
    (h2 : d1.terminal2 = some p) (h1' : d2.terminal1 = some q) (h2' : d2.terminal2 = some b)
    (hold : ∀ x ∈ [a, b], s.network.Free x) (hnew : ∀ x ∈ [p, q], s.network.Free x)
    (hab : b.Apart a) (hpq : q.Apart p)
    (hown1 : d1.unique = false) (hown2 : d2.unique = false)
    (hids : ∀ id ∈ [d1.id, d2.id], id ∈ n.index → ∃ c ∈ C, c.id = id) (hne : d1.id ≠ d2.id)
    {post : Fault → Session → Prop}
    (hpost : ∀ f t, SplitFault K [a, b] [p, q] ⟨d1.id, d2.id⟩ f → post f t)
    {k : String → String → Run Unit}
    (hk : ∀ t, Replaced K C {.branch (d2.branch q b d2.id), .branch (d1.branch a p d1.id)} n
      t.network → (k d1.id d2.id).Fails t post) :
    (createLine d1 >>= fun id1 => createLine d2 >>= k id1).Fails s post := by
  simp only [List.forall_mem_cons, List.not_mem_nil, false_implies, implies_true, and_true]
    at hold hnew hids
  obtain ⟨ha, hb⟩ := hold
  obtain ⟨hp, hq⟩ := hnew
  refine ((fails_createFirst h h1 h2 ha hp hids.1).mono hpost).bind fun id1 t hfirst => ?_
  obtain rfl := createLine_id h1 h2 hown1 hfirst
  refine ((fails_createSecond h h1 h2 h1' h2' hq hb hab hpq hids.2 hne hfirst).mono hpost).bind
    fun id2 u hsecond => ?_
  obtain rfl := createLine_id h1' h2' hown2 hsecond
  have hmade := replaced_createLine (replaced_createLine h h1 h2 hfirst) h1' h2' hsecond
  rw [insert_empty_eq] at hmade
  exact hk u hmade

end Run

end Switchyard
