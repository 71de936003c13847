import Switchyard.Proofs.Trace
import Switchyard.Switching

namespace Switchyard

open Network

variable [Numbering]

/-- Connectables of the first session are still there in the second. -/
def Session.Retains (s t : Session) : Prop :=
  ∀ id c, s.network.Keeps id c → t.network.Keeps id c

theorem Session.Retains.refl (s : Session) : s.Retains s := fun _ _ h => h

theorem Session.Retains.trans {s t u : Session} (h : s.Retains t) (g : t.Retains u) :
    s.Retains u := fun id c hc => g id c (h id c hc)

namespace Run

variable {tight : Prop} {doomed : String → Prop} {α β : Type} {s : Session}

/-- The run takes steps only, and removes no connectable. -/
def Builds (tight : Prop) (doomed : String → Prop) (r : Run α) (s : Session) : Prop :=
  Traced tight doomed r s fun _ t => s.Retains t

variable {x : Run α} {k : α → Run β}

theorem Builds.pure {a : α} : Builds tight doomed (pure a) s :=
  Traced.pure (.refl s)

theorem Builds.bind_retains (hx : Builds tight doomed x s)
    (hk : ∀ a t, s.Retains t → Builds tight doomed (k a) t) : Builds tight doomed (x >>= k) s :=
  Traced.bind hx fun a t hst => (hk a t hst).mono fun _ _ htu => hst.trans htu

theorem Builds.bind (hx : Builds tight doomed x s) (hk : ∀ a t, Builds tight doomed (k a) t) :
    Builds tight doomed (x >>= k) s :=
  hx.bind_retains fun a t _ => hk a t

theorem Builds.bind_bind {γ : Type} {y : β → Run γ} (hx : Builds tight doomed (x >>= k) s)
    (hy : ∀ b t, Builds tight doomed (y b) t) :
    Builds tight doomed (x >>= fun a => k a >>= y) s := by
  rw [← bind_assoc]
  exact hx.bind hy

theorem Builds.emit {e : Event} (he : e.isError = false) (hi : e.idChange? = none) :
    Builds tight doomed (emit e) s :=
  Traced.emit he hi (.refl s)

theorem Builds.note {c : Prop} [Decidable c] {e : Event} {k : Unit → Run β}
    (he : e.isError = false) (hi : e.idChange? = none) (hk : ∀ t, Builds tight doomed (k ()) t) :
    Builds tight doomed (if c then Run.emit e >>= k else k ()) s :=
  Traced.ite (fun _ => Builds.bind (Builds.emit he hi) fun _ => hk) fun _ => hk s

/-- A created object is told at once, and lies in no doomed voltage level. -/
theorem Builds.told {change : Edit String} {e : String → Event} {entry : IndexEntry}
    (h : s.network.Coherent tight →
      (∃ id n, change s.network = .ok id n ∧ s.network.Gains tight id entry n) ∨
        change.Refuses s.network)
    (hd : ∀ vl, entry.voltageLevel = some vl → ¬doomed vl) (he : ∀ id, (e id).isError = false)
    (hi : ∀ id, (e id).idChange? = some (.add id)) :
    Builds tight doomed (edit change >>= fun id => Run.emit (e id)) s := by
  refine Traced.told fun hs => ?_
  obtain ⟨id, n, hok, hg⟩ | hr := h hs
  · exact Or.inl ⟨id, n, hok, .gain hg hd (he id) (hi id), hg.keeps⟩
  · exact Or.inr hr

theorem Builds.told_bind {change : Edit String} {e : String → Event} {entry : IndexEntry}
    {k : String → Run β}
    (h : s.network.Coherent tight →
      (∃ id n, change s.network = .ok id n ∧ s.network.Gains tight id entry n) ∨
        change.Refuses s.network)
    (hd : ∀ vl, entry.voltageLevel = some vl → ¬doomed vl) (he : ∀ id, (e id).isError = false)
    (hi : ∀ id, (e id).idChange? = some (.add id)) (hk : ∀ id t, Builds tight doomed (k id) t) :
    Builds tight doomed (edit change >>= fun id => Run.emit (e id) >>= fun _ => k id) s := by
  refine Traced.told_bind fun hs => ?_
  obtain ⟨id, n, hok, hg⟩ | hr := h hs
  · refine Or.inl ⟨id, n, hok, .gain hg hd (he id) (hi id), ?_⟩
    exact (hk id _).mono fun _ _ ht x c hc => ht x c (hg.keeps x c hc)
  · exact Or.inr hr

theorem builds_createSwitch {vl : String} (hd : ¬doomed vl) (kind : SwitchKind) (id : String)
    (node1 node2 : Node) (isOpen fictitious : Bool) :
    Builds tight doomed (createSwitch vl kind id node1 node2 isOpen fictitious) s :=
  Builds.told (fun hs => SwitchDraft.create_cases hs _) (by rintro _ ⟨⟩; exact hd) (fun _ => rfl)
    fun _ => rfl

theorem builds_createBusSwitch {vl : String} (hd : ¬doomed vl) (id bus1 bus2 : String) :
    Builds tight doomed (createBusSwitch vl id bus1 bus2) s :=
  Builds.told (fun hs => BusSwitchDraft.create_cases hs _) (by rintro _ ⟨⟩; exact hd) (fun _ => rfl)
    fun _ => rfl

theorem builds_createDisconnectors (naming : NamingStrategy) {vl : String} (hd : ¬doomed vl)
    (fork : Node) (base target : String) (rails : List Rail) :
    Builds tight doomed (createDisconnectors naming vl fork base target rails) s := by
  induction rails generalizing s with
  | nil => exact Builds.pure
  | cons rail rest ih =>
    exact Builds.bind (builds_createSwitch hd _ _ _ _ _ _) fun _ _ => ih

theorem builds_createBay (naming : NamingStrategy) {vl : String} (hd : ¬doomed vl)
    (bay : BayNodes) (base target : String) (rails : List Rail) :
    Builds tight doomed (createBay naming vl bay base target rails) s :=
  Builds.bind (builds_createSwitch hd _ _ _ _ _ _) fun _ _ =>
    builds_createDisconnectors naming hd _ _ _ _

theorem kind_of_junction_error {n : Network} {id : String} {f : Fault}
    (h : n.junction id = .error f) : f.kind ≠ .internal := by
  unfold Network.junction at h
  split at h
  · cases h
    simp [Fault.kind]
  · split at h <;> cases h
    simp [Fault.kind]
  · split at h <;> cases h
    simp [Fault.kind]
  · cases h
    simp [Fault.kind]

theorem traced_junction (id : String) :
    Traced tight doomed (junction id) s fun j t => t = s ∧ s.network.junction id = .ok j := by
  refine Traced.network_bind ?_
  cases hj : s.network.junction id with
  | ok j => exact Traced.pure ⟨rfl, rfl⟩
  | error f => exact Traced.refuse (kind_of_junction_error hj)

theorem traced_busbarSection (id : String) :
    Traced tight doomed (busbarSection id) s fun b t =>
      t = s ∧ s.network.busbarSections[id]? = some b := by
  refine Traced.network_bind ?_
  split
  · exact Traced.refuse (by simp [Fault.kind])
  · cases hb : s.network.busbarSections[id]? with
    | none => exact Traced.refuse (by simp [Fault.kind])
    | some b => exact Traced.pure ⟨rfl, rfl⟩
  · exact Traced.refuse (by simp [Fault.kind])

theorem builds_busbarSection (id : String) : Builds tight doomed (busbarSection id) s :=
  (traced_busbarSection id).mono fun _ _ h => h.1 ▸ .refl s

theorem builds_lookUp_wiring (n : Network) (vl : String) :
    Builds tight doomed (lookUp (n.wiring vl)) s := by
  cases hw : n.wiring vl with
  | ok w => exact Builds.pure
  | error f => exact Traced.throw (kind_of_wiring_error hw)

theorem traced_nextNode (vl : String) :
    Traced tight doomed (nextNode vl) s fun node t =>
      t = s ∧ ∃ w, s.network.inside? vl = some (.nodeBreaker w) ∧ node = w.nextNode := by
  refine Traced.network_bind (Traced.lookUp_bind (fun w hw => ?_) fun _ => kind_of_wiring_error)
  exact Traced.pure ⟨rfl, w, wiring_eq_ok_iff.mp hw, rfl⟩

theorem builds_nextNode (vl : String) : Builds tight doomed (nextNode vl) s :=
  (traced_nextNode vl).mono fun _ _ h => h.1 ▸ .refl s

theorem builds_createSectionLink (naming : NamingStrategy) {vl : String} (hd : ¬doomed vl)
    (base : String) (kind : SwitchKind) (node1 node2 : Node) (fictitious : Bool) :
    Builds tight doomed (createSectionLink naming vl base kind node1 node2 fictitious) s := by
  have hsome : ∀ kind id a b t,
      Builds tight doomed (createSwitch vl kind id a b false fictitious) t := fun kind id a b _ =>
    builds_createSwitch hd kind id a b false fictitious
  refine Traced.ite (fun _ => ?_) fun _ => hsome _ _ _ _ _
  refine Builds.bind (builds_nextNode vl) fun first _ => ?_
  exact Builds.bind (hsome _ _ _ _ _) fun _ _ => Builds.bind (hsome _ _ _ _ _) fun _ _ =>
    hsome _ _ _ _ _

theorem builds_baySections (vl busbarSection : String) (node : Node) :
    Builds tight doomed (baySections vl busbarSection node) s := by
  refine Traced.network_bind ?_
  split
  · exact Builds.pure
  · exact Builds.pure

end Run

end Switchyard
