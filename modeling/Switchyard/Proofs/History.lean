import Switchyard.Change
import Switchyard.Proofs.Outcome

namespace Switchyard

open Network

variable [Numbering] {tight : Prop} {n : Network} {α β : Type}

/-- The network that an edit leaves, also if it is refused. -/
def Edit.after (x : Edit α) (n : Network) : Network :=
  match x n with
  | .ok _ m => m
  | .error _ m => m

theorem Edit.after_map (f : α → β) (x : Edit α) : (f <$> x : Edit β).after n = x.after n := by
  simp only [after, Functor.map, EStateM.map]
  cases x n <;> rfl

theorem Edit.after_return (x : Edit α) (b : β) :
    (x >>= fun _ => pure b : Edit β).after n = x.after n := by
  simp only [after, bind_apply, pure_apply]
  cases x n <;> rfl

/-- The edit leads to a coherent network, or is refused. -/
def Edit.Atomic (tight : Prop) (x : Edit α) (n : Network) : Prop :=
  (∃ a m, x n = .ok a m ∧ m.Coherent tight) ∨ x.Refuses n

theorem Edit.Atomic.map (f : α → β) {x : Edit α} (hx : x.Atomic tight n) :
    (f <$> x : Edit β).Atomic tight n := by
  simp only [Atomic, Refuses, Functor.map, EStateM.map]
  obtain ⟨a, m, hok, hm⟩ | ⟨g, hr, hg⟩ := hx
  · rw [hok]
    exact Or.inl ⟨f a, m, rfl, hm⟩
  · rw [hr]
    exact Or.inr ⟨g, rfl, hg⟩

theorem Edit.Atomic.bind_pure (b : β) {x : Edit α} (hx : x.Atomic tight n) :
    (x >>= fun _ => pure b : Edit β).Atomic tight n := by
  simp only [Atomic, Refuses, bind_apply, pure_apply]
  obtain ⟨a, m, hok, hm⟩ | ⟨g, hr, hg⟩ := hx
  · rw [hok]
    exact Or.inl ⟨b, m, rfl, hm⟩
  · rw [hr]
    exact Or.inr ⟨g, rfl, hg⟩

theorem Edit.Atomic.coherent_after (h : n.Coherent tight) {x : Edit α} (hx : x.Atomic tight n) :
    (x.after n).Coherent tight := by
  obtain ⟨a, m, hok, hm⟩ | ⟨f, hr, -⟩ := hx
  · simpa only [after, hok] using hm
  · simpa only [after, hr] using h

/-- Internal connections are asked to be removed between a node and itself. -/
def Change.Folds (c : Change) : Prop :=
  ∃ vl node, c = .removeConnections vl node node

theorem Change.atomic_perform (h : n.Coherent tight) (c : Change) (hc : tight → ¬c.Folds) :
    c.perform.Atomic tight n := by
  cases c with
  | addSubstation s =>
    exact Edit.Atomic.map _ <| (Substation.create_cases h s).imp_left
      fun ⟨m, hok, hg⟩ => ⟨_, m, hok, hg.coherent⟩
  | addVoltageLevel d =>
    exact Edit.Atomic.map _ <| (VoltageLevelDraft.create_cases h d).imp_left
      fun ⟨m, hok, hg⟩ => ⟨_, m, hok, hg.coherent⟩
  | addBusbarSection d =>
    exact Edit.Atomic.map _ <| (BusbarSectionDraft.create_cases h d).imp_left
      fun ⟨x, m, hok, hg⟩ => ⟨x, m, hok, hg.coherent⟩
  | addBus d =>
    exact Edit.Atomic.map _ <| (BusDraft.create_cases h d).imp_left
      fun ⟨x, m, hok, hg⟩ => ⟨x, m, hok, hg.coherent⟩
  | addSwitch d =>
    exact Edit.Atomic.map _ <| (SwitchDraft.create_cases h d).imp_left
      fun ⟨x, m, hok, hg⟩ => ⟨x, m, hok, hg.coherent⟩
  | addBusSwitch d =>
    exact Edit.Atomic.map _ <| (BusSwitchDraft.create_cases h d).imp_left
      fun ⟨x, m, hok, hg⟩ => ⟨x, m, hok, hg.coherent⟩
  | addConnectable d =>
    exact Edit.Atomic.map _ <| (ConnectableDraft.create_cases h d).imp_left
      fun ⟨x, m, _, hok, hg, _⟩ => ⟨x, m, hok, hg.coherent⟩
  | addConnection vl a b =>
    exact Edit.Atomic.bind_pure _ <| (Edit.addConnection_cases h vl a b).imp_left
      fun ⟨m, hok, hm, _⟩ => ⟨(), m, hok, hm⟩
  | setBusbarPosition id position =>
    exact Edit.Atomic.bind_pure _ <| (Edit.setBusbarPosition_cases h id position).imp_left
      fun ⟨m, hok, hm, _⟩ => ⟨(), m, hok, hm⟩
  | setFeederPosition id position =>
    exact Edit.Atomic.bind_pure _ <| (Edit.setFeederPosition_cases h id position).imp
      (fun ⟨_, m, _, hok, hm, _⟩ => ⟨(), m, hok, hm⟩) fun ⟨_, hr⟩ => hr
  | setSwitchOpen id isOpen =>
    exact Edit.Atomic.bind_pure _ <| (Edit.setSwitchOpen_cases h id isOpen).imp
      (fun ⟨_, m, hok, hm, _⟩ => ⟨(), m, hok, hm⟩) fun ⟨_, hr⟩ => hr
  | removeSwitch id =>
    exact Edit.Atomic.bind_pure _ <| (Edit.removeSwitch_cases h id).imp
      (fun ⟨_, _, _, m, _, _, hok, hm, _⟩ => ⟨(), m, hok, hm⟩) fun ⟨_, hr⟩ => hr
  | removeConnectable id =>
    exact Edit.Atomic.bind_pure _ <| (Edit.removeConnectable_cases h id).imp
      (fun ⟨_, m, _, hok, hm, _⟩ => ⟨(), m, hok, hm⟩) fun ⟨_, hr⟩ => hr
  | removeConnections vl a b =>
    have hne : tight → a ≠ b := fun ht he => hc ht ⟨vl, a, he ▸ rfl⟩
    exact Edit.Atomic.map _ <| (Edit.removeConnections_cases h vl hne).imp_left
      fun ⟨_, count, m, _, hok, hm, _⟩ => ⟨count, m, hok, hm⟩
  | removeVoltageLevel id =>
    exact Edit.Atomic.bind_pure _ <| (Edit.removeVoltageLevel_cases h id).imp
      (fun ⟨hok, hm, _⟩ => ⟨(), _, hok, hm⟩) fun ⟨_, hr⟩ => hr
  | removeSubstation id =>
    exact Edit.Atomic.bind_pure _ <| (Edit.removeSubstation_cases h id).imp
      (fun ⟨hok, hm, _⟩ => ⟨(), _, hok, hm⟩) fun ⟨_, hr⟩ => hr

theorem Change.coherent_after (h : n.Coherent tight) (c : Change) (hc : tight → ¬c.Folds) :
    (c.perform.after n).Coherent tight :=
  (c.atomic_perform h hc).coherent_after h

/-- A change, or the application of a modification. -/
inductive Operation where
  | change (c : Change)
  | modification (m : Modification) (naming : NamingStrategy) (strict : Bool)

/-- The network that an operation leaves, also if it fails. -/
def Operation.perform (n : Network) : Operation → Network
  | .change c => c.perform.after n
  | .modification m naming strict => (m.apply n naming strict).network

def Operation.Folds : Operation → Prop
  | .change c => c.Folds
  | .modification .. => False

namespace Network

def empty (id : String) (serial : Nat) : Network :=
  { id, serial }

/-- The network that operations leave, one after the other. -/
def after (n : Network) (ops : List Operation) : Network :=
  ops.foldl Operation.perform n

theorem coherent_empty (tight : Prop) (id : String) (serial : Nat) :
    (empty id serial).Coherent tight := by
  have hinside : ∀ vl, (empty id serial).inside? vl = none := fun vl => by simp [inside?, empty]
  have hkeeps : ∀ x c, ¬(empty id serial).Keeps x c := fun x c => by
    cases c <;> simp [Keeps, empty]
  constructor
  · intro x entry
    simp only [stores_iff, hinside, hkeeps]
    simp [empty]
  · simp [hinside]
  · simp [HoldsAt, Attaches, hinside, hkeeps]
  · simp [Attaches, hkeeps]
  · simp [empty]
  · simp [empty]
  · simp [empty]
  · simp [hkeeps]

theorem Coherent.perform (h : n.Coherent tight) (o : Operation) (ho : tight → ¬o.Folds) :
    (o.perform n).Coherent tight := by
  cases o with
  | change c => exact c.coherent_after h ho
  | modification m naming strict => exact m.coherent_apply h naming strict

/-- Operations keep a network coherent. -/
theorem Coherent.after (h : n.Coherent tight) (ops : List Operation)
    (hops : tight → ∀ o ∈ ops, ¬o.Folds) : (n.after ops).Coherent tight := by
  induction ops generalizing n with
  | nil => exact h
  | cons o rest ih =>
    refine ih (h.perform o fun ht => hops ht o List.mem_cons_self) fun ht x hx => ?_
    exact hops ht x (List.mem_cons_of_mem o hx)

end Network

end Switchyard
