import Switchyard.Coupling
import Switchyard.FeederConnection
import Switchyard.Grid
import Switchyard.Proofs.Building
import Switchyard.Proofs.Lookup

namespace Switchyard

open Std Network Run

variable [Numbering] {tight : Prop} {doomed : String → Prop} {s : Session}

namespace Coupling

theorem builds_connectSide (hd : ∀ vl, ¬doomed vl) (naming : NamingStrategy) (vl base : String)
    (node : Node) (rail : Rail) (position : Option BusbarPosition) (leftOut : Option OuterBusbar) :
    Builds tight doomed (connectSide naming vl base node rail position leftOut) s := by
  cases position with
  | none =>
    refine Builds.bind (builds_createDisconnectors naming (hd vl) _ _ _ _) fun _ _ => ?_
    exact Builds.bind (Builds.emit rfl rfl) fun _ _ => Builds.pure
  | some p =>
    refine Traced.network_bind ?_
    exact Builds.bind (builds_createDisconnectors naming (hd vl) _ _ _ _) fun _ _ => Builds.pure

theorem builds_coupleSections (hd : ∀ vl, ¬doomed vl) (naming : NamingStrategy)
    (given : Option String) (vl : String) (rail1 rail2 : Rail) :
    Builds tight doomed (coupleSections naming given vl rail1 rail2) s := by
  refine Builds.bind (builds_nextNode vl) fun node t => ?_
  refine Builds.bind (builds_createSwitch (hd vl) _ _ _ _ _ _) fun _ t => ?_
  refine Traced.network_bind ?_
  refine Builds.bind (builds_connectSide hd naming vl _ _ rail1 _ _) fun count1 _ => ?_
  refine Builds.bind (builds_connectSide hd naming vl _ _ rail2 _ _) fun count2 _ => ?_
  exact Traced.ite (fun _ => Builds.emit rfl rfl) fun _ => Builds.pure

theorem builds_steps (m : Coupling) (naming : NamingStrategy) (hd : ∀ vl, ¬doomed vl) :
    Builds tight doomed (m.steps naming) s := by
  refine Traced.of_coherent fun hs => ?_
  refine Traced.bind (traced_junction m.id1) ?_
  intro j1 _ hx
  obtain ⟨rfl, h1⟩ := hx
  refine Traced.bind (traced_junction m.id2) ?_
  intro j2 _ hx
  obtain ⟨rfl, h2⟩ := hx
  refine Traced.ite (fun _ => Traced.refuse_bind (by simp [Fault.kind])) fun _ => ?_
  refine Traced.ite (fun _ => Traced.refuse_bind (by simp [Fault.kind])) fun hvl => ?_
  have hvl : j1.voltageLevel = j2.voltageLevel := Decidable.not_not.mp hvl
  -- Buses and busbar sections are never in one voltage level.
  rcases hs.inside_of_junction h1 with ⟨x, vl, l, rfl, hl⟩ | ⟨x, vl, node, w, rfl, hw⟩
  · rcases hs.inside_of_junction h2 with ⟨y, vl', l', rfl, hl'⟩ | ⟨y, vl', node', w', rfl, hw'⟩
    · exact Builds.bind (builds_createBusSwitch (hd vl) _ _ _) fun _ _ => Builds.emit rfl rfl
    · have heq : vl = vl' := hvl
      subst heq
      cases hl.symm.trans hw'
  · rcases hs.inside_of_junction h2 with ⟨y, vl', l', rfl, hl'⟩ | ⟨y, vl', node', w', rfl, hw'⟩
    · have heq : vl = vl' := hvl
      subst heq
      cases hw.symm.trans hl'
    · exact Builds.bind (builds_coupleSections hd naming _ _ _ _) fun _ _ => Builds.emit rfl rfl

end Coupling

namespace Run

theorem builds_copyRailSwitch (naming : NamingStrategy) {vl : String} (hd : ¬doomed vl)
    (base : String) (railNode node : Node) (r : RailSwitch) :
    Builds tight doomed (copyRailSwitch naming vl base railNode node r) s :=
  Traced.network_bind <| Traced.ite (fun _ => builds_createSwitch hd _ _ _ _ _ _) fun _ =>
    builds_createSwitch hd _ _ _ _ _ _

theorem builds_copyRailSwitches (naming : NamingStrategy) {vl : String} (hd : ¬doomed vl)
    (base : String) (railNode : Node) (copies : List (Node × RailSwitch)) :
    Builds tight doomed (copyRailSwitches naming vl base railNode copies) s := by
  induction copies generalizing s with
  | nil => exact Builds.pure
  | cons copy rest ih =>
    exact Builds.bind (builds_copyRailSwitch naming hd _ _ _ _) fun _ _ => ih

end Run

namespace Grid

theorem builds_createBuses (naming : NamingStrategy) {vl : String} (hd : ¬doomed vl)
    (base : String) (positions : List BusbarPosition) :
    Builds tight doomed (createBuses naming vl base positions) s := by
  induction positions generalizing s with
  | nil => exact Builds.pure
  | cons p rest ih =>
    refine Builds.told_bind (fun hs => BusDraft.create_cases hs _) ?_ (fun _ => rfl) (fun _ => rfl)
      fun id t => Builds.bind ih fun _ _ => Builds.pure
    intro _ hx
    cases hx
    exact hd

theorem builds_linkBuses (naming : NamingStrategy) {vl : String} (hd : ¬doomed vl) (base : String)
    (buses : List (BusbarPosition × String)) (positions : List BusbarPosition) :
    Builds tight doomed (linkBuses naming vl base buses positions) s := by
  induction positions generalizing s with
  | nil => exact Builds.pure
  | cons p rest ih =>
    rw [linkBuses]
    dsimp only
    split
    · exact Builds.bind (builds_createBusSwitch hd _ _ _) fun _ _ => ih
    · exact ih

theorem builds_createSections (naming : NamingStrategy) {vl : String} (hd : ¬doomed vl)
    (base : String) (node : Node) (positions : List BusbarPosition) :
    Builds tight doomed (createSections naming vl base node positions) s := by
  induction positions generalizing s node with
  | nil => exact Builds.pure
  | cons p rest ih =>
    refine Builds.told_bind (fun hs => BusbarSectionDraft.create_cases hs _) ?_ (fun _ => rfl)
      (fun _ => rfl) fun id t => Builds.bind (ih _) fun _ _ => Builds.pure
    intro _ hx
    cases hx
    exact hd

theorem builds_linkSections (naming : NamingStrategy) {vl : String} (hd : ¬doomed vl)
    (base : String) (created : List (BusbarPosition × Node))
    (links : List (BusbarPosition × SwitchKind)) :
    Builds tight doomed (linkSections naming vl base created links) s := by
  induction links generalizing s with
  | nil => exact Builds.pure
  | cons link rest ih =>
    obtain ⟨p, kind⟩ := link
    rw [linkSections]
    dsimp only
    split
    · exact Builds.bind (builds_createSectionLink naming hd _ _ _ _ _) fun _ _ => ih
    · exact ih

theorem builds_copyToRails (naming : NamingStrategy) {vl : String} (hd : ¬doomed vl)
    (base : String) (toCopy : List (Node × RailSwitch)) (nodes : List Node) :
    Builds tight doomed (copyToRails naming vl base toCopy nodes) s := by
  induction nodes generalizing s with
  | nil => exact Builds.pure
  | cons node rest ih =>
    exact Builds.bind (builds_copyRailSwitches naming hd _ _ _) fun _ _ => ih

theorem builds_connectSections (naming : NamingStrategy) {vl : String} (hd : ¬doomed vl)
    (base : String) (existing : List (BusbarSection × BusbarPosition))
    (created : List (BusbarPosition × Node)) (sections : List Int32) :
    Builds tight doomed (connectSections naming vl base existing created sections) s := by
  induction sections generalizing s with
  | nil => exact Builds.pure
  | cons i rest ih =>
    refine Traced.network_bind (Builds.bind (builds_lookUp_wiring _ vl) fun w t => ?_)
    exact Builds.bind (builds_copyToRails naming hd _ _ _) fun _ _ => ih

omit [Numbering] in
theorem error_of_check {α : Type} {c : Prop} [Decidable c] {f g : Fault}
    {k : Unit → Except Fault α}
    (h : ((if c then throw f else pure () : Except Fault Unit) >>= k) = .error g) :
    g = f ∨ k () = .error g := by
  by_cases hc : c
  · rw [if_pos hc] at h
    exact Or.inl (Except.error.inj h).symm
  · rw [if_neg hc] at h
    exact Or.inr h

omit [Numbering] in
theorem kind_of_checkCounts_error {g : Grid} {f : Fault} (h : g.checkCounts = .error f) :
    f.kind ≠ .internal := by
  unfold checkCounts at h
  obtain rfl | h := error_of_check h
  · simp [Fault.kind]
  obtain rfl | h := error_of_check h
  · simp [Fault.kind]
  obtain rfl | h := error_of_check h
  · simp [Fault.kind]
  dsimp only at h
  split at h <;> cases h
  simp [Fault.kind]

omit [Numbering] in
theorem kind_of_checkSwitchKinds_error {g : Grid} {f : Fault} (h : g.checkSwitchKinds = .error f) :
    f.kind ≠ .internal := by
  unfold checkSwitchKinds at h
  dsimp only at h
  split at h
  · cases h
    simp [Fault.kind]
  · split at h <;> cases h
    simp [Fault.kind]

theorem builds_stepsOnBuses (g : Grid) (naming : NamingStrategy) (hd : ∀ vl, ¬doomed vl)
    (base switchBase : String) :
    Builds tight doomed (g.stepsOnBuses naming base switchBase) s :=
  Builds.bind (builds_createBuses naming (hd _) _ _) fun _ _ =>
    builds_linkBuses naming (hd _) _ _ _

theorem builds_stepsOnNodes (g : Grid) (naming : NamingStrategy) (hd : ∀ vl, ¬doomed vl)
    (base switchBase : String) :
    Builds tight doomed (g.stepsOnNodes naming base switchBase) s := by
  refine Traced.network_bind ?_
  refine Traced.ite (fun _ => Traced.refuse_bind (by simp [Fault.kind])) fun _ => ?_
  dsimp only
  cases hk : g.checkSwitchKinds with
  | error f => exact Traced.refuse (kind_of_checkSwitchKinds_error hk)
  | ok _ =>
    refine Builds.bind (builds_nextNode _) fun node _ => ?_
    refine Builds.bind (builds_createSections naming (hd _) _ _ _) fun created _ => ?_
    refine Builds.bind (builds_linkSections naming (hd _) _ _ _) fun _ _ => ?_
    exact Traced.ite (fun _ => builds_connectSections naming (hd _) _ _ _ _) fun _ => Builds.pure

theorem builds_steps (g : Grid) (naming : NamingStrategy) (hd : ∀ vl, ¬doomed vl) :
    Builds tight doomed (g.steps naming) s := by
  unfold steps
  cases hc : g.checkCounts with
  | error f => exact Traced.refuse (kind_of_checkCounts_error hc)
  | ok _ =>
    refine Traced.network_bind ?_
    cases s.network.voltageLevels[g.voltageLevel]? with
    | none => exact Traced.refuse (by simp [Fault.kind])
    | some v =>
      dsimp only
      cases v.topology with
      | nodeBreaker w =>
        exact Builds.bind (g.builds_stepsOnNodes naming hd _ _) fun _ _ => Builds.emit rfl rfl
      | busBreaker l =>
        exact Builds.bind (g.builds_stepsOnBuses naming hd _ _) fun _ _ => Builds.emit rfl rfl

end Grid

namespace FeederConnection

theorem builds_findSections (ids : List String) : Builds tight doomed (findSections ids) s := by
  induction ids generalizing s with
  | nil => exact Builds.pure
  | cons id rest ih =>
    exact Builds.bind (builds_busbarSection id) fun _ _ => Builds.bind ih fun _ _ => Builds.pure

theorem builds_checkConnectables (n : Network) (ids : List String) :
    Builds tight doomed (checkConnectables n ids) s := by
  induction ids generalizing s with
  | nil => exact Builds.pure
  | cons id rest ih =>
    exact Traced.ite (fun _ => Traced.refuse_bind (by simp [Fault.kind])) fun _ => ih

omit [Numbering] in
theorem kind_of_placeTargets_error {vl : String} {targets : List BusbarSection} {f : Fault}
    (h : placeTargets vl targets = .error f) : f.kind ≠ .internal := by
  unfold placeTargets at h
  split at h
  · cases h
    simp [Fault.kind]
  · split at h <;> cases h
    simp [Fault.kind]

theorem builds_connectTargets (naming : NamingStrategy) {vl : String} (hd : ¬doomed vl)
    (base : String) (toCopy : List (Node × RailSwitch)) (targets : List Rail) :
    Builds tight doomed (connectTargets naming vl base toCopy targets) s := by
  induction targets generalizing s with
  | nil => exact Builds.pure
  | cons target rest ih =>
    refine Traced.network_bind (Builds.bind (builds_copyRailSwitches naming hd _ _ _) fun _ _ => ?_)
    exact Builds.bind ih fun _ _ => Builds.pure

theorem builds_connectSections (m : FeederConnection) (naming : NamingStrategy) {vl : String}
    (hd : ¬doomed vl) (base : String) (placed : List (BusbarSection × BusbarPosition))
    (targets : List (Rail × BusbarPosition)) (indices : List Int32) :
    Builds tight doomed (m.connectSections naming vl base placed targets indices) s := by
  induction indices generalizing s with
  | nil => exact Builds.pure
  | cons i rest ih =>
    refine Traced.network_bind (Builds.bind (builds_lookUp_wiring _ vl) fun w t => ?_)
    refine Builds.bind (builds_connectTargets naming hd _ _ _) fun count _ => ?_
    exact Builds.bind ih fun _ _ => Builds.pure

theorem builds_steps (m : FeederConnection) (naming : NamingStrategy) (hd : ∀ vl, ¬doomed vl) :
    Builds tight doomed (m.steps naming) s := by
  refine Traced.ite (fun _ => Traced.refuse_bind (by simp [Fault.kind])) fun _ => ?_
  refine Builds.bind (builds_findSections _) fun found t => Traced.network_bind ?_
  refine Builds.bind (builds_checkConnectables _ _) fun _ u => ?_
  dsimp only
  cases hp : placeTargets ((found.head?.map (·.voltageLevel)).getD "") found with
  | error f => exact Traced.refuse (kind_of_placeTargets_error hp)
  | ok targets =>
    refine Builds.bind (m.builds_connectSections naming (hd _) _ _ _ _) fun count _ => ?_
    exact Builds.emit rfl rfl

end FeederConnection

end Switchyard
