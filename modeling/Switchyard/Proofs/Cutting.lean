import Switchyard.Proofs.Building
import Switchyard.Proofs.Pruning

namespace Switchyard

open Network

variable [Numbering]

/-- The cuts can be made one after the other in the voltage level: each switch
is there and is cut once, and no edge is from a node to itself. -/
structure Network.Bears (n : Network) (vl : String) (cuts : List Cut) : Prop where
  wired : ∃ w, n.inside? vl = some (.nodeBreaker w)
  nodup : (switchIds (removedEdges cuts)).Nodup
  switch : ∀ id ∈ switchIds (removedEdges cuts), ∃ x, n.index[id]? = some ⟨.switch, some x⟩
  apart : ∀ e ∈ removedEdges cuts, e.node1 ≠ e.node2

variable {tight : Prop} {doomed : String → Prop} {α β : Type} {s : Session}

/-- What a pruned bay cuts can be cut. -/
theorem Network.Coherent.bears_prune {n : Network} (h : n.Coherent tight) {vl : String} {w : Wiring}
    (hw : n.inside? vl = some (.nodeBreaker w)) (start node : Node) :
    n.Bears vl ((n.bay w start).prune node) := by
  obtain ⟨hnodup, hmem, hapart⟩ := (h.firm_wiring hw).1.prune_spec n start node
  refine ⟨⟨w, hw⟩, hnodup, fun id hid => ⟨vl, ?_⟩, hapart⟩
  exact (h.index_iff id _).mpr (.inside hw ⟨rfl, hmem id hid⟩)

theorem Network.Bears.tail {n m : Network} {vl : String} {c : Cut} {rest : List Cut}
    (h : n.Bears vl (c :: rest)) (hw : ∃ w, m.inside? vl = some (.nodeBreaker w))
    (hindex : ∀ id ∈ switchIds (removedEdges rest), m.index[id]? = n.index[id]?) :
    m.Bears vl rest := by
  have hsub : (removedEdges rest).Sublist (removedEdges (c :: rest)) :=
    (List.sublist_cons_self c rest).filterMap _
  have hids : (switchIds (removedEdges rest)).Sublist (switchIds (removedEdges (c :: rest))) :=
    hsub.filterMap _
  refine ⟨hw, hids.nodup h.nodup, fun id hid => ?_, fun e he => h.apart e (hsub.subset he)⟩
  rw [hindex id hid]
  exact h.switch id (hids.subset hid)

namespace Run

/-- From a coherent network, the run takes steps only and ends well. -/
def Smooth (tight : Prop) (doomed : String → Prop) (r : Run α) (s : Session)
    (post : α → Session → Prop) : Prop :=
  s.network.Coherent tight → ∃ a t, r s = .ok a t ∧ Steps tight doomed s t ∧ post a t

variable {x : Run α} {k : α → Run β} {p : α → Session → Prop} {q : β → Session → Prop}

theorem Smooth.traced (h : Smooth tight doomed x s p) : Traced tight doomed x s p := by
  intro hs
  obtain ⟨a, t, hr, hst, hp⟩ := h hs
  rw [hr]
  exact ⟨hst, hp⟩

theorem Smooth.pure {a : α} (h : p a s) : Smooth tight doomed (pure a) s p :=
  fun _ => ⟨a, s, rfl, .refl, h⟩

theorem Smooth.bind (hx : Smooth tight doomed x s p)
    (hk : ∀ a t, p a t → Smooth tight doomed (k a) t q) :
    Smooth tight doomed (x >>= k) s q := by
  intro hs
  obtain ⟨a, t, hr, hst, ha⟩ := hx hs
  obtain ⟨b, u, hk, htu, hb⟩ := hk a t ha (hst.coherent hs)
  exact ⟨b, u, by rw [bind_apply, hr]; exact hk, hst.trans htu, hb⟩

theorem Smooth.bind_bind {γ : Type} {y : β → Run γ} {r : γ → Session → Prop}
    (hx : Smooth tight doomed (x >>= k) s q) (hy : ∀ b t, q b t → Smooth tight doomed (y b) t r) :
    Smooth tight doomed (x >>= fun a => k a >>= y) s r := by
  rw [← bind_assoc]
  exact hx.bind hy

theorem Smooth.mono {q : α → Session → Prop} (h : Smooth tight doomed x s p)
    (hpq : ∀ a t, p a t → q a t) : Smooth tight doomed x s q := by
  intro hs
  obtain ⟨a, t, hr, hst, hp⟩ := h hs
  exact ⟨a, t, hr, hst, hpq a t hp⟩

theorem Smooth.emit {e : Event} {p : Unit → Session → Prop} (he : e.isError = false)
    (hi : e.idChange? = none) (h : p () (s.tell e)) : Smooth tight doomed (emit e) s p :=
  fun _ => ⟨(), _, rfl, .single (.note he hi), h⟩

theorem smooth_cutSwitch {id x vl : String}
    (hi : s.network.index[id]? = some ⟨.switch, some x⟩)
    (hw : ∃ w, s.network.inside? vl = some (.nodeBreaker w)) :
    Smooth tight doomed (edit (Edit.removeSwitch id) >>= fun _ => emit (.switchRemoved id)) s
      fun _ t => s.Retains t ∧ (∃ w, t.network.inside? vl = some (.nodeBreaker w)) ∧
        t.network.index = s.network.index.erase id := by
  intro hs
  obtain ⟨y, v, u, m, hy, hv, hrun, hm, hindex, hkeeps, hinside, hkind, -⟩ | ⟨hno, -⟩ :=
    Edit.removeSwitch_cases hs id
  · refine ⟨(), ⟨m, s.events ++ [.switchRemoved id]⟩, ?_, .single (.lose hm ?_ hindex rfl rfl),
      fun y c hc => (hkeeps y c).mpr hc, ?_, hindex⟩
    · simp only [bind_apply, edit, hrun]
      rfl
    · exact mem_iff_exists_getElem?.mpr ⟨_, hi⟩
    · obtain ⟨w, hw⟩ := hw
      dsimp only
      rw [hinside]
      split
      next he =>
        have heq := he
        subst heq
        have heq := Option.some.inj (hv.symm.trans hw)
        subst heq
        cases u with
        | nodeBreaker w' => exact ⟨w', rfl⟩
        | busBreaker l => cases hkind
      next => exact ⟨w, hw⟩
  · exact absurd hi (hno x)

theorem smooth_cutConnection {vl : String} {a b : Node} (hne : a ≠ b)
    (hw : ∃ w, s.network.inside? vl = some (.nodeBreaker w)) :
    Smooth tight doomed
      (edit (Edit.removeConnections vl a b) >>= fun _ => emit (.connectionRemoved a b)) s
      fun _ t => s.Retains t ∧ (∃ w, t.network.inside? vl = some (.nodeBreaker w)) ∧
        t.network.index = s.network.index := by
  intro hs
  obtain ⟨w, hw⟩ := hw
  obtain ⟨w, count, m, -, hrun, hm, hindex, hkeeps, hinside⟩ | ⟨f, hrun, -⟩ :=
    Edit.removeConnections_cases hs vl fun _ => hne
  · refine ⟨(), ⟨m, s.events ++ [.connectionRemoved a b]⟩, ?_, ?_,
      fun y c hc => (hkeeps y c).mpr hc, ?_, hindex⟩
    · simp only [bind_apply, edit, hrun]
      rfl
    · have hquiet : Step tight doomed s { s with network := m } := .quiet hm hindex
      exact (Relation.ReflTransGen.single hquiet).tail (.note rfl rfl)
    · dsimp only
      rw [hinside, if_pos rfl]
      exact ⟨_, rfl⟩
  · rw [Edit.removeConnections, bind_apply, Edit.wiring_of_inside hw] at hrun
    cases hrun

/-- Cuts that can be made are made, one after the other. -/
theorem smooth_cut (connectable vl : String) (cuts : List Cut) (h : s.network.Bears vl cuts) :
    Smooth tight doomed (cut connectable vl cuts) s fun _ t => s.Retains t := by
  induction cuts generalizing s with
  | nil => exact Smooth.pure (.refl s)
  | cons c rest ih =>
    cases c with
    | stopAt fork =>
      refine Smooth.bind (p := fun _ t => t = s.tell (.pruningStopped connectable fork))
        (Smooth.emit rfl rfl rfl) ?_
      intro _ _ hx
      subst hx
      exact ih (h.tail h.wired fun _ _ => rfl)
    | remove e =>
      obtain ⟨a, b, link⟩ := e
      cases link with
      | switch id =>
        have hids : switchIds (removedEdges (.remove ⟨a, b, .switch id⟩ :: rest)) =
            id :: switchIds (removedEdges rest) := rfl
        obtain ⟨x, hx⟩ := h.switch id (hids ▸ List.mem_cons_self)
        obtain ⟨hnot, -⟩ := List.nodup_cons.mp (hids ▸ h.nodup)
        refine Smooth.bind_bind (smooth_cutSwitch hx h.wired) ?_
        intro _ t hx
        obtain ⟨hst, hw, hindex⟩ := hx
        have hrest : t.network.Bears vl rest := by
          refine h.tail hw fun y hy => ?_
          rw [hindex, getElem?_erase_of_ne]
          exact fun he => hnot (he ▸ hy)
        exact (ih hrest).mono fun _ _ htu => hst.trans htu
      | connection =>
        have hne := h.apart ⟨a, b, .connection⟩ List.mem_cons_self
        refine Smooth.bind_bind (smooth_cutConnection hne h.wired) ?_
        intro _ t hx
        obtain ⟨hst, hw, hindex⟩ := hx
        exact (ih (h.tail hw fun _ _ => by rw [hindex])).mono fun _ _ htu => hst.trans htu

theorem smooth_pruneBay (connectable : String) {vl : String} (node : Node)
    (hw : ∃ w, s.network.inside? vl = some (.nodeBreaker w)) :
    Smooth tight doomed (pruneBay connectable vl node) s fun _ t => s.Retains t := by
  intro hs
  obtain ⟨w, hw⟩ := hw
  have hrun : pruneBay connectable vl node s =
      cut connectable vl ((s.network.bay w node).prune node) s := by
    have hnetwork : pruneBay connectable vl node s =
        (lookUp (s.network.wiring vl) >>= fun w =>
          cut connectable vl ((s.network.bay w node).prune node)) s := rfl
    rw [hnetwork, Network.wiring_eq_ok_iff.mpr hw]
    rfl
  rw [hrun]
  exact smooth_cut connectable vl _ (hs.bears_prune hw node node) hs

theorem builds_pruneBay (connectable vl : String) (node : Node) :
    Builds tight doomed (pruneBay connectable vl node) s := by
  refine Traced.network_bind (Traced.lookUp_bind (fun w hw hs => ?_) fun _ => kind_of_wiring_error)
  have hbears := hs.bears_prune (Network.wiring_eq_ok_iff.mp hw) node node
  exact (smooth_cut connectable vl _ hbears).traced hs

/-- The bays of the terminals of a connectable that is there are pruned without
a fault. -/
theorem smooth_pruneBays (connectable : String) {id : String} {c : Connectable} (ts : List Terminal)
    (hc : s.network.Keeps id c) (hts : ∀ t ∈ ts, ∃ side, (side, t) ∈ c.terminals) :
    Smooth tight doomed (pruneBays connectable ts) s fun _ t => s.Retains t := by
  induction ts generalizing s with
  | nil => exact Smooth.pure (.refl s)
  | cons t rest ih =>
    have hrest : ∀ x ∈ rest, ∃ side, (side, x) ∈ c.terminals := fun x hx =>
      hts x (List.mem_cons_of_mem t hx)
    obtain ⟨vl, connection⟩ := t
    cases connection with
    | bus bus => exact ih hc hrest
    | node node =>
      intro hs
      obtain ⟨side, hside⟩ := hts _ List.mem_cons_self
      obtain ⟨w, hw, -⟩ := (hs.holdsAt_iff vl node ⟨id, side⟩).mpr ⟨c, hc, hside⟩
      refine Smooth.bind (smooth_pruneBay connectable node ⟨w, hw⟩) (fun _ u hsu => ?_) hs
      exact (ih (hsu id c hc) hrest).mono fun _ _ huv => hsu.trans huv

theorem builds_pruneBays (connectable : String) (ts : List Terminal) :
    Builds tight doomed (pruneBays connectable ts) s := by
  induction ts generalizing s with
  | nil => exact Builds.pure
  | cons t rest ih =>
    obtain ⟨vl, connection⟩ := t
    cases connection with
    | bus bus => exact ih
    | node node => exact Builds.bind (builds_pruneBay connectable vl node) fun _ _ => ih

end Run

end Switchyard
