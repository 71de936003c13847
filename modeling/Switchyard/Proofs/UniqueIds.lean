import Switchyard.Proofs.Nodes

namespace Switchyard

open Std Network

variable {α β : Type} {n : Network}

def Fault.isIdTaken : Fault → Bool
  | .idTaken .. => true
  | _ => false

/-- The id that a change asks for, if any free id close to it will do. -/
def Change.lenientId? : Change → Option String
  | .addBusbarSection d => if d.unique then some d.id else none
  | .addBus d => if d.unique then some d.id else none
  | .addSwitch d => if d.unique then some d.id else none
  | .addBusSwitch d => if d.unique then some d.id else none
  | .addConnectable (.injection d) => if d.unique then some d.id else none
  | .addConnectable (.branch d) => if d.unique then some d.id else none
  | _ => none

namespace Network

variable {vl : String} {f : Fault}

theorem isIdTaken_of_wiring_error (h : n.wiring vl = .error f) : f.isIdTaken = false := by
  unfold wiring at h
  split at h
  · cases h
    rfl
  · split at h <;> cases h
    rfl

theorem isIdTaken_of_busLayout_error (h : n.busLayout vl = .error f) : f.isIdTaken = false := by
  unfold busLayout at h
  split at h
  · cases h
    rfl
  · split at h <;> cases h
    rfl

end Network

namespace Edit

/-- The edit answers as told, or is refused for another reason than a taken id. -/
def Yields (x : Edit α) (n : Network) (post : α → Network → Prop) : Prop :=
  match x n with
  | .ok a m => post a m
  | .error f _ => f.isIdTaken = false

variable {x : Edit α} {k : α → Edit β} {post : α → Network → Prop} {next : β → Network → Prop}
  {f : Fault}

theorem yields_throw (h : f.isIdTaken = false) : (throw f : Edit α).Yields n post :=
  h

theorem Yields.bind (hx : x.Yields n post) (hk : ∀ a m, post a m → (k a).Yields m next) :
    (x >>= k).Yields n next := by
  unfold Yields at hx ⊢
  rw [bind_apply]
  cases hr : x n with
  | ok a m =>
    rw [hr] at hx
    exact hk a m hx
  | error f m =>
    rw [hr] at hx
    exact hx

theorem Yields.map {g : α → β} (hx : x.Yields n post) (hg : ∀ a m, post a m → next (g a) m) :
    (g <$> x).Yields n next :=
  hx.bind hg

theorem Yields.check_bind {c : Prop} [Decidable c] {k : Unit → Edit β}
    (hf : f.isIdTaken = false) (hk : (k ()).Yields n next) :
    (if c then throw f >>= k else k ()).Yields n next := by
  split
  · exact hf
  · exact hk

theorem Yields.get_bind {k : Network → Edit β} (h : (k n).Yields n next) :
    ((get : Edit Network) >>= k).Yields n next :=
  h

theorem yields_lookUp {find : Network → Except Fault α}
    (h : ∀ {f}, find n = .error f → f.isIdTaken = false) :
    (lookUp find).Yields n fun _ m => m = n := by
  unfold Yields
  rw [lookUp_apply]
  cases hr : find n with
  | ok a => exact rfl
  | error f => exact h hr

theorem yields_wiring (vl : String) (n : Network) : (wiring vl).Yields n fun _ m => m = n :=
  yields_lookUp isIdTaken_of_wiring_error

theorem yields_busLayout (vl : String) (n : Network) :
    (busLayout vl).Yields n fun _ m => m = n :=
  yields_lookUp isIdTaken_of_busLayout_error

theorem Yields.claim_bind {id : String} {kind : ObjectKind} {holder : Option String}
    {k : String → Edit β} (hk : ∀ m, (k (n.uniqueId id)).Yields m next) :
    (claimId id true kind holder >>= k).Yields n next := by
  unfold Yields
  rw [bind_apply, claimId_unique]
  exact hk _

theorem yields_checkTerminal (t : Terminal) (n : Network) :
    (checkTerminal t).Yields n fun _ m => m = n := by
  refine Yields.get_bind ?_
  split
  next => exact yields_throw rfl
  next v _ =>
    split
    next =>
      split
      next => exact yields_throw rfl
      next => exact rfl
    next =>
      split
      next => exact yields_throw rfl
      next => exact rfl
    next => exact yields_throw rfl
    next => exact yields_throw rfl

theorem yields_checkTerminals (earlier ts : List Terminal) (n : Network) :
    (checkTerminals earlier ts).Yields n fun _ m => m = n := by
  induction ts generalizing earlier with
  | nil => exact rfl
  | cons t rest ih =>
    refine (yields_checkTerminal t n).bind ?_
    rintro _ _ rfl
    split
    next => exact Yields.check_bind rfl (ih _)
    next => exact ih _

theorem yields_attachTerminals (id : String) (ts : List (Side × Terminal)) (n : Network) :
    (attachTerminals id ts).Yields n fun _ _ => True := by
  induction ts generalizing n with
  | nil => exact trivial
  | cons x rest ih =>
    obtain ⟨side, t⟩ := x
    unfold attachTerminals
    split
    next => exact ih n
    next node _ =>
      refine (yields_wiring t.voltageLevel n).bind ?_
      rintro w _ rfl
      cases w.attach node ⟨id, side⟩ with
      | ok w' => exact ih _
      | error other => exact yields_throw rfl

theorem yields_enter (ts : List (Side × Terminal)) (id : String) (make : String → Connectable)
    (n : Network) : (enter ts id true make).Yields n fun given _ => given = n.uniqueId id := by
  refine (yields_checkTerminals [] (ts.map (·.2)) n).bind ?_
  rintro _ _ rfl
  refine Yields.claim_bind fun m => ?_
  exact (yields_attachTerminals _ ts m).bind fun _ _ _ => rfl

end Edit

theorem BusDraft.yields_create {d : BusDraft} (h : d.unique = true) (n : Network) :
    d.create.Yields n fun given _ => given = n.uniqueId d.id := by
  unfold create
  rw [h]
  refine (Edit.yields_busLayout d.voltageLevel n).bind ?_
  rintro _ _ rfl
  refine Edit.Yields.claim_bind fun m => ?_
  exact (Edit.yields_busLayout d.voltageLevel m).bind fun _ _ _ => rfl

theorem SwitchDraft.yields_create {d : SwitchDraft} (h : d.unique = true) (n : Network) :
    d.create.Yields n fun given _ => given = n.uniqueId d.id := by
  unfold create
  rw [h]
  refine (Edit.yields_wiring d.voltageLevel n).bind ?_
  rintro _ _ rfl
  refine Edit.Yields.check_bind rfl (Edit.Yields.claim_bind fun m => ?_)
  exact (Edit.yields_wiring d.voltageLevel m).bind fun _ _ _ => rfl

theorem BusSwitchDraft.yields_create {d : BusSwitchDraft} (h : d.unique = true) (n : Network) :
    d.create.Yields n fun given _ => given = n.uniqueId d.id := by
  unfold create
  rw [h]
  refine (Edit.yields_busLayout d.voltageLevel n).bind ?_
  rintro _ _ rfl
  refine Edit.Yields.check_bind rfl (Edit.Yields.check_bind rfl ?_)
  refine Edit.Yields.claim_bind fun m => ?_
  exact (Edit.yields_busLayout d.voltageLevel m).bind fun _ _ _ => rfl

theorem BusbarSectionDraft.yields_create {d : BusbarSectionDraft} (h : d.unique = true)
    (n : Network) : d.create.Yields n fun given _ => given = n.uniqueId d.id := by
  unfold create
  rw [h]
  exact Edit.yields_enter [(.one, .atNode d.voltageLevel d.node)] d.id
    (fun id => .busbarSection ⟨id, d.name, d.voltageLevel, d.node, d.position⟩) n

theorem InjectionDraft.yields_create {d : InjectionDraft} (h : d.unique = true) (n : Network) :
    d.create.Yields n fun given _ => given = n.uniqueId d.id := by
  unfold create
  cases d.terminal with
  | none => exact rfl
  | some t =>
    rw [h]
    exact Edit.yields_enter [(.one, t)] d.id (fun id => .injection (d.injection t id)) n

theorem BranchDraft.yields_create {d : BranchDraft} (h : d.unique = true) (n : Network) :
    d.create.Yields n fun given _ => given = n.uniqueId d.id := by
  cases h1 : d.terminal1 with
  | none =>
    unfold create
    rw [h1]
    exact rfl
  | some t1 =>
    cases h2 : d.terminal2 with
    | none =>
      unfold create
      rw [h1, h2]
      exact rfl
    | some t2 =>
      rw [d.create_eq h1 h2, h]
      exact Edit.yields_enter _ _ _ n

/-- What may have any free id close to the one asked for gets the first one. -/
theorem Change.yields_perform {c : Change} {base : String} (h : c.lenientId? = some base)
    (n : Network) : c.perform.Yields n fun r _ => r = .created (n.uniqueId base) := by
  have hcreated : ∀ {x : Edit String} {unique : Bool} {id : String},
      (if unique then some id else none) = some base →
      (unique = true → x.Yields n fun given _ => given = n.uniqueId id) →
      (Receipt.created <$> x).Yields n fun r _ => r = .created (n.uniqueId base) := by
    intro x unique id hid hx
    cases unique with
    | true =>
      cases hid
      exact (hx rfl).map fun _ _ hgiven => congrArg Receipt.created hgiven
    | false => cases hid
  cases c with
  | addBusbarSection d => exact hcreated h fun hd => d.yields_create hd n
  | addBus d => exact hcreated h fun hd => d.yields_create hd n
  | addSwitch d => exact hcreated h fun hd => d.yields_create hd n
  | addBusSwitch d => exact hcreated h fun hd => d.yields_create hd n
  | addConnectable d =>
    cases d with
    | injection d => exact hcreated h fun hd => d.yields_create hd n
    | branch d => exact hcreated h fun hd => d.yields_create hd n
    | transformer d => cases h
  | _ => cases h

namespace Network

/-- The free id close to a given one is found within one try more than there are ids, although
nothing bounds the search. It is the id itself, or else its first free numbered form. A change
that asks for such an id is never refused because an id is taken, and creates under it. -/
theorem uniqueId_first_free (n : Network) (base : String) :
    (∃ tries ≤ n.index.size + 1,
        ∀ t id, n.Searches base t id ↔ t = tries ∧ id = n.uniqueId base) ∧
      n.uniqueId base ∉ n.index ∧ (base ∉ n.index → n.uniqueId base = base) ∧
      (base ∈ n.index →
        ∃ number, n.uniqueId base = numberedId base number ∧ n.FirstFree base number) ∧
      ∀ c : Change, c.lenientId? = some base →
        (∀ network kind id m, c.perform n ≠ .error (.idTaken network kind id) m) ∧
          ∀ r m, c.perform n = .ok r m → r = .created (n.uniqueId base) := by
  refine ⟨n.exists_searches base, n.uniqueId_not_mem base, uniqueId_of_free, fun htaken => ?_,
    fun c hc => ?_⟩
  · obtain ⟨number, hlt, hfirst⟩ := exists_firstFree htaken
    exact ⟨number, uniqueId_of_taken htaken hfirst hlt, hfirst⟩
  · have hyields := c.yields_perform hc n
    unfold Edit.Yields at hyields
    constructor
    · intro network kind id m herror
      rw [herror] at hyields
      cases hyields
    · intro r m hok
      rw [hok] at hyields
      exact hyields

/-- Three switches in a row, the last two under ids that look numbered. -/
def numberedRow : List Operation :=
  [.change (.addVoltageLevel { id := "V" }),
    .change (.addSwitch { voltageLevel := "V", id := "D", node1 := 0, node2 := 1 }),
    .change (.addSwitch { voltageLevel := "V", id := "D#0", node1 := 1, node2 := 2 }),
    .change (.addSwitch { voltageLevel := "V", id := "D#2", node1 := 2, node2 := 3 })]

/-- One switch more, under a free id close to that of the first one. -/
def secondFirst : Change :=
  .addSwitch { voltageLevel := "V", id := "D", node1 := 3, node2 := 4, unique := true }

theorem uniqueId_first_free_numberedRow :
    (∃ tries ≤ 5,
        ∀ t id, ((empty "N" 0).after numberedRow).Searches "D" t id ↔ t = tries ∧ id = "D#1") ∧
      "D#1" ∉ ((empty "N" 0).after numberedRow).index ∧
      secondFirst.lenientId? = some "D" ∧
      ∃ m, secondFirst.perform ((empty "N" 0).after numberedRow) = .ok (.created "D#1") m := by
  have hsize : ((empty "N" 0).after numberedRow).index.size = 4 := by decide +kernel
  have hid : ((empty "N" 0).after numberedRow).uniqueId "D" = "D#1" := by decide +kernel
  obtain ⟨htries, hfree, -, -, hchanges⟩ :=
    uniqueId_first_free ((empty "N" 0).after numberedRow) "D"
  rw [hsize, hid] at htries
  rw [hid] at hfree hchanges
  obtain ⟨-, hcreated⟩ := hchanges secondFirst rfl
  have hok : (match secondFirst.perform ((empty "N" 0).after numberedRow) with
      | .ok _ _ => true
      | .error _ _ => false) = true := by
    decide +kernel
  refine ⟨htries, hfree, rfl, ?_⟩
  cases hr : secondFirst.perform ((empty "N" 0).after numberedRow) with
  | ok r m => exact ⟨m, by rw [hcreated r m hr]⟩
  | error f m =>
    rw [hr] at hok
    cases hok

end Network

end Switchyard
