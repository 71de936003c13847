import Switchyard.Network.Edit
import Switchyard.Proofs.FreeIds
import Switchyard.Proofs.Rewiring

namespace Switchyard

open Std

section Apply

variable {ε σ α β : Type}

theorem bind_apply (x : EStateM ε σ α) (f : α → EStateM ε σ β) (s : σ) :
    (x >>= f) s =
      match x s with
      | .ok a s => f a s
      | .error e s => .error e s :=
  rfl

theorem pure_apply (a : α) (s : σ) : (pure a : EStateM ε σ α) s = .ok a s :=
  rfl

theorem throw_apply (e : ε) (s : σ) : (throw e : EStateM ε σ α) s = .error e s :=
  rfl

theorem get_apply (s : σ) : (get : EStateM ε σ σ) s = .ok s s :=
  rfl

theorem modify_apply (f : σ → σ) (s : σ) : (modify f : EStateM ε σ PUnit) s = .ok ⟨⟩ (f s) :=
  rfl

end Apply

variable [Numbering]

namespace Network

theorem kind_of_wiring_error {n : Network} {vl : String} {f : Fault} (h : n.wiring vl = .error f) :
    f.kind ≠ .internal := by
  unfold wiring at h
  split at h
  · cases h
    simp [Fault.kind]
  · split at h <;> cases h
    simp [Fault.kind]

theorem kind_of_busLayout_error {n : Network} {vl : String} {f : Fault}
    (h : n.busLayout vl = .error f) : f.kind ≠ .internal := by
  unfold busLayout at h
  split at h
  · cases h
    simp [Fault.kind]
  · split at h <;> cases h
    simp [Fault.kind]

def register (n : Network) (id : String) (entry : IndexEntry) : Network :=
  { n with index := n.index.insert id entry }

/-- Equipment can be attached there. -/
def Free (n : Network) (t : Terminal) : Prop :=
  match t.connection with
  | .node node => ∃ w, n.inside? t.voltageLevel = some (.nodeBreaker w) ∧ node ∉ w.terminals
  | .bus bus => n.HasBus t.voltageLevel bus

end Network

/-- The terminals are not at one node. -/
def Terminal.Apart (t u : Terminal) : Prop :=
  t.node?.isSome → t ≠ u

namespace Edit

/-- An edit is refused with the network as it was, for no fault of the network
itself. -/
def Refuses {α : Type} (change : Edit α) (n : Network) : Prop :=
  ∃ f, change n = .error f n ∧ f.kind ≠ .internal

variable {n : Network}

/-- A look-up leaves the network as it is, whether it finds something or is refused. -/
theorem lookUp_apply {α : Type} (find : Network → Except Fault α) (n : Network) :
    lookUp find n =
      match find n with
      | .ok a => .ok a n
      | .error f => .error f n := by
  rw [lookUp, bind_apply, get_apply]
  dsimp only
  cases find n <;> rfl

theorem lookUp_cases {α : Type} (find : Network → Except Fault α) (n : Network)
    (hfault : ∀ {f}, find n = .error f → f.kind ≠ .internal) :
    (∃ a, find n = .ok a ∧ lookUp find n = .ok a n) ∨ Refuses (lookUp find) n := by
  rw [Refuses, lookUp_apply]
  cases hfind : find n with
  | ok a => exact Or.inl ⟨a, rfl, rfl⟩
  | error f => exact Or.inr ⟨f, rfl, hfault hfind⟩

theorem wiring_of_inside {vl : String} {w : Wiring} (h : n.inside? vl = some (.nodeBreaker w)) :
    wiring vl n = .ok w n := by
  rw [wiring, lookUp_apply, Network.wiring_eq_ok_iff.mpr h]

theorem busLayout_of_inside {vl : String} {l : BusLayout}
    (h : n.inside? vl = some (.busBreaker l)) : busLayout vl n = .ok l n := by
  rw [busLayout, lookUp_apply, Network.busLayout_eq_ok_iff.mpr h]

theorem wiring_cases (n : Network) (vl : String) :
    (∃ w, n.inside? vl = some (.nodeBreaker w) ∧ wiring vl n = .ok w n) ∨
      Refuses (wiring vl) n := by
  simpa only [wiring, Network.wiring_eq_ok_iff] using
    lookUp_cases (·.wiring vl) n Network.kind_of_wiring_error

theorem busLayout_cases (n : Network) (vl : String) :
    (∃ l, n.inside? vl = some (.busBreaker l) ∧ busLayout vl n = .ok l n) ∨
      Refuses (busLayout vl) n := by
  simpa only [busLayout, Network.busLayout_eq_ok_iff] using
    lookUp_cases (·.busLayout vl) n Network.kind_of_busLayout_error

theorem claimId_unique (n : Network) (id : String) (kind : ObjectKind) (vl : Option String) :
    claimId id true kind vl n =
      .ok (n.uniqueId id) (n.register (n.uniqueId id) ⟨kind, vl⟩) := by
  unfold claimId
  rw [bind_apply, get_apply]
  dsimp only
  cases n.index[id]? <;> rfl

/-- A claimed id was not in use. It is the one asked for, unless another is accepted. -/
theorem claimId_cases (n : Network) (id : String) (unique : Bool) (kind : ObjectKind)
    (vl : Option String) :
    (∃ given, given ∉ n.index ∧ (unique = false → given = id) ∧
        claimId id unique kind vl n = .ok given (n.register given ⟨kind, vl⟩)) ∨
      Refuses (claimId id unique kind vl) n := by
  cases unique with
  | true =>
    exact Or.inl ⟨n.uniqueId id, n.uniqueId_not_mem id, by simp, claimId_unique n id kind vl⟩
  | false =>
    unfold claimId
    cases hi : n.index[id]? with
    | none =>
      refine Or.inl ⟨id, by simpa using hi, fun _ => rfl, ?_⟩
      rw [bind_apply, get_apply]
      simp only [hi]
      rfl
    | some taken =>
      refine Or.inr ⟨.idTaken n.id taken.kind id, ?_, by simp [Fault.kind]⟩
      rw [bind_apply, get_apply]
      simp only [hi]
      rfl

end Edit

end Switchyard
