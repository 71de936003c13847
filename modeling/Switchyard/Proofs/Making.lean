import Switchyard.Proofs.Failing

namespace Switchyard

namespace Network

variable {A : Change → Prop} {n m : Network} {α : Type}

/-- One of the allowed changes leads from the first network to the second. -/
def Becomes (A : Change → Prop) (n m : Network) : Prop :=
  ∃ c r, A c ∧ c.perform n = .ok r m

/-- Allowed changes lead from the first network to the second, one after the other. -/
abbrev Develops (A : Change → Prop) : Network → Network → Prop :=
  Relation.ReflTransGen (Becomes A)

theorem Becomes.coherent (h : Becomes A n m) (hn : n.Coherent False) : m.Coherent False := by
  obtain ⟨c, r, -, hc⟩ := h
  exact c.coherent_of_ok rfl hn hc

theorem Develops.coherent (h : Develops A n m) (hn : n.Coherent False) : m.Coherent False := by
  induction h with
  | refl => exact hn
  | tail _ hstep ih => exact hstep.coherent ih

theorem Develops.eq_of_none (h : Develops (fun _ => False) n m) : m = n := by
  cases h with
  | refl => rfl
  | tail _ hstep =>
    obtain ⟨c, r, hnone, -⟩ := hstep
    exact hnone.elim

end Network

/-- An edit that is a change but for what it answers. -/
def Edit.Is {α : Type} (x : Edit α) (c : Change) : Prop :=
  ∃ g : α → Receipt, c.perform = g <$> x

theorem Edit.is_create {x : Edit String} {c : Change}
    (h : c.perform = Receipt.created <$> x) : x.Is c :=
  ⟨_, h⟩

theorem Edit.is_return {x : Edit Unit} {c : Change} {r : Receipt}
    (h : c.perform = x >>= fun _ => pure r) : x.Is c :=
  ⟨fun _ => r, h⟩

theorem Edit.Is.ok {α : Type} {x : Edit α} {c : Change} (h : x.Is c) {n m : Network} {a : α}
    (hok : x n = .ok a m) : ∃ r, c.perform n = .ok r m := by
  obtain ⟨g, hg⟩ := h
  refine ⟨g a, ?_⟩
  rw [hg]
  simp only [Functor.map, EStateM.map, hok]

theorem Edit.Is.error {α : Type} {x : Edit α} {c : Change} (h : x.Is c) {n m : Network} {f : Fault}
    (herror : x n = .error f m) : c.perform n = .error f m := by
  obtain ⟨g, hg⟩ := h
  rw [hg]
  simp only [Functor.map, EStateM.map, herror]

namespace Run

open Network

variable {A : Change → Prop} {α β : Type} {s t : Session}

/-- From a coherent network, the run makes allowed changes only, also if a fault
ends it. -/
def Makes (A : Change → Prop) (r : Run α) (s : Session) : Prop :=
  s.network.Coherent False →
    match r s with
    | .ok _ t => Develops A s.network t.network
    | .error _ t => Develops A s.network t.network

variable {x : Run α} {k : α → Run β}

theorem Makes.ok (h : Makes A x s) (hs : s.network.Coherent False) {a : α}
    (hr : x s = .ok a t) : Develops A s.network t.network := by
  have hrun := h hs
  rwa [hr] at hrun

theorem Makes.error (h : Makes A x s) (hs : s.network.Coherent False) {f : Fault}
    (hr : x s = .error f t) : Develops A s.network t.network := by
  have hrun := h hs
  rwa [hr] at hrun

theorem Makes.mono {B : Change → Prop} (h : Makes A x s) (hAB : ∀ c, A c → B c) :
    Makes B x s := by
  intro hs
  have hwider : ∀ {m}, Develops A s.network m → Develops B s.network m := fun hd =>
    Relation.ReflTransGen.mono (fun _ _ ⟨c, r, hc, hok⟩ => ⟨c, r, hAB c hc, hok⟩) _ _ hd
  have hrun := h hs
  split at hrun <;> exact hwider hrun

/-- A run that makes no change leaves no trace of a fault. -/
theorem Makes.spares (h : Makes (fun _ => False) x s) (hs : s.network.Coherent False) :
    x.Spares s :=
  fun _ _ hr => (h.error hs hr).eq_of_none

theorem makes_pure (a : α) : Makes A (pure a : Run α) s :=
  fun _ => .refl

theorem makes_emit (e : Event) : Makes A (emit e) s :=
  fun _ => .refl

theorem makes_throw (f : Fault) : Makes A (throw f : Run α) s :=
  fun _ => .refl

theorem makes_refuse (f : Fault) : Makes A (refuse f : Run α) s :=
  fun _ => .refl

theorem makes_lookUp (answer : Except Fault α) : Makes A (lookUp answer) s := by
  cases answer with
  | ok a => exact makes_pure a
  | error f => exact makes_throw f

theorem Makes.bind_ok (hx : Makes A x s) (hk : ∀ a t, x s = .ok a t → Makes A (k a) t) :
    Makes A (x >>= k) s := by
  intro hs
  have hrun := hx hs
  rw [bind_apply]
  cases hr : x s with
  | error f t =>
    rw [hr] at hrun
    exact hrun
  | ok a t =>
    rw [hr] at hrun
    have hnext := hk a t hr (hrun.coherent hs)
    dsimp only
    cases hkr : k a t with
    | ok b u =>
      rw [hkr] at hnext
      exact hrun.trans hnext
    | error f u =>
      rw [hkr] at hnext
      exact hrun.trans hnext

theorem Makes.bind (hx : Makes A x s) (hk : ∀ a t, Makes A (k a) t) : Makes A (x >>= k) s :=
  hx.bind_ok fun a t _ => hk a t

theorem Makes.network_bind {k : Network → Run β} (h : Makes A (k s.network) s) :
    Makes A (network >>= k) s :=
  h

theorem Makes.ite {c : Prop} [Decidable c] {y : Run α} (hx : c → Makes A x s)
    (hy : ¬c → Makes A y s) : Makes A (if c then x else y) s := by
  split
  · exact hx ‹_›
  · exact hy ‹_›

theorem Makes.check_bind {c : Prop} [Decidable c] {f : Fault} {k : Unit → Run β}
    (hk : ¬c → Makes A (k ()) s) : Makes A (if c then refuse f >>= k else k ()) s :=
  Makes.ite (fun _ => (makes_refuse f).bind_ok fun _ _ hr => (refuse_eq_ok.mp hr).elim) hk

/-- An allowed change is made as a whole or not at all. -/
theorem makes_edit {change : Edit α} {c : Change} (hc : change.Is c) (hA : A c) :
    Makes A (edit change) s := by
  intro hs
  unfold edit
  cases hr : change s.network with
  | ok a m =>
    obtain ⟨r, hok⟩ := hc.ok hr
    exact .single ⟨c, r, hA, hok⟩
  | error f m =>
    obtain ⟨a, k, hok, -⟩ | hrefuses := c.atomic_perform hs False.elim
    · cases hok.symm.trans (hc.error hr)
    · obtain ⟨g, hrefused, -⟩ := hrefuses
      cases hrefused.symm.trans (hc.error hr)
      exact .refl

theorem makes_junction (id : String) : Makes A (junction id) s := by
  refine Makes.network_bind ?_
  cases s.network.junction id with
  | error f => exact makes_refuse f
  | ok j => exact makes_pure j

theorem makes_busbarSection (id : String) : Makes A (busbarSection id) s := by
  refine Makes.network_bind ?_
  split
  · exact makes_refuse _
  · split
    · exact makes_pure _
    · exact makes_refuse _
  · exact makes_refuse _

theorem makes_nextNode (vl : String) : Makes A (nextNode vl) s :=
  Makes.network_bind ((makes_lookUp _).bind fun _ _ => makes_pure _)

theorem makes_baySections (vl id : String) (node : Node) : Makes A (baySections vl id node) s := by
  refine Makes.network_bind ?_
  cases s.network.sectionIndex? id with
  | none => exact makes_pure _
  | some i => exact makes_pure _

theorem makes_createSwitch {vl id : String} {kind : SwitchKind} {a b : Node}
    {isOpen fictitious : Bool}
    (hA : A <| .addSwitch
      { voltageLevel := vl, id, kind, node1 := a, node2 := b, isOpen, retained := kind = .breaker,
        fictitious, unique := true }) :
    Makes A (createSwitch vl kind id a b isOpen fictitious) s :=
  (makes_edit (Edit.is_create rfl) hA).bind fun _ _ => makes_emit _

theorem makes_createBusSwitch {vl id bus1 bus2 : String}
    (hA : A (.addBusSwitch { voltageLevel := vl, id, bus1, bus2, unique := true })) :
    Makes A (createBusSwitch vl id bus1 bus2) s :=
  (makes_edit (Edit.is_create rfl) hA).bind fun _ _ => makes_emit _

/-! Pruning removes switches and internal connections, and makes no other change. -/

section Pruning

variable {connectable vl : String} {node : Node} (hswitch : ∀ id, A (.removeSwitch id))
  (hconnections : ∀ vl a b, A (.removeConnections vl a b))
include hswitch hconnections

theorem makes_cut (cuts : List Cut) : Makes A (cut connectable vl cuts) s := by
  induction cuts generalizing s with
  | nil => exact makes_pure ()
  | cons c rest ih =>
    cases c with
    | stopAt fork => exact (makes_emit _).bind fun _ _ => ih
    | remove e =>
      obtain ⟨a, b, link⟩ := e
      cases link with
      | switch id =>
        refine (makes_edit (c := .removeSwitch id) (Edit.is_return rfl) (hswitch id)).bind ?_
        exact fun _ _ => (makes_emit _).bind fun _ _ => ih
      | connection =>
        refine (makes_edit (c := .removeConnections vl a b) ⟨.removed, rfl⟩
          (hconnections vl a b)).bind ?_
        exact fun _ _ => (makes_emit _).bind fun _ _ => ih

theorem makes_pruneBay : Makes A (pruneBay connectable vl node) s :=
  Makes.network_bind ((makes_lookUp _).bind fun _ _ => makes_cut hswitch hconnections _)

theorem makes_pruneBays (ts : List Terminal) : Makes A (pruneBays connectable ts) s := by
  induction ts generalizing s with
  | nil => exact makes_pure ()
  | cons t rest ih =>
    rw [pruneBays]
    cases t.node? with
    | none => exact (makes_pure ()).bind fun _ _ => ih
    | some node => exact (makes_pruneBay hswitch hconnections).bind fun _ _ => ih

theorem makes_pruneLeft (left : List (String × Terminal)) : Makes A (pruneLeft left) s := by
  induction left generalizing s with
  | nil => exact makes_pure ()
  | cons x rest ih => exact (makes_pruneBays hswitch hconnections _).bind fun _ _ => ih

end Pruning

end Run

end Switchyard
