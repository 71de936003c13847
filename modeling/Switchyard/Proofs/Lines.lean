import Switchyard.LineCut
import Switchyard.LineMerge
import Switchyard.LineTap
import Switchyard.Proofs.Cutting
import Switchyard.TeeReplacement

namespace Switchyard

open Network

variable [Numbering]

namespace Run

variable {tight : Prop} {doomed : String → Prop} {s : Session}

theorem traced_line (id : String) : Traced tight doomed (line id) s fun _ t => t = s := by
  refine Traced.network_bind ?_
  cases s.network.line? id with
  | none => exact Traced.refuse (by simp [Fault.kind])
  | some b => exact Traced.pure rfl

theorem traced_checkPercent (percent : Float) :
    Traced tight doomed (checkPercent percent) s fun _ t => t = s :=
  Traced.ite (fun _ => Traced.refuse (by simp [Fault.kind])) fun _ => Traced.pure rfl

theorem traced_checkNewIds (replaced earlier ids : List String) :
    Traced tight doomed (checkNewIds replaced earlier ids) s fun _ t => t = s := by
  induction ids generalizing earlier with
  | nil => exact Traced.pure rfl
  | cons id rest ih =>
    exact Traced.network_bind <| Traced.ite
      (fun _ => Traced.refuse_bind (by simp [Fault.kind])) fun _ => ih _

theorem traced_removeLine (id : String) :
    Traced tight doomed (removeLine id) s fun _ _ => True := by
  refine Traced.told fun hs => ?_
  obtain ⟨c, m, hc, hrun, hm, hindex, -⟩ | ⟨-, hr⟩ := Edit.removeConnectable_cases hs id
  · exact Or.inl ⟨(), m, hrun, .lose hm (hs.mem_index (.connectable hc)) hindex rfl rfl, trivial⟩
  · exact Or.inr hr

theorem traced_removeLines (ids : List String) :
    Traced tight doomed (removeLines ids) s fun _ _ => True := by
  induction ids generalizing s with
  | nil => exact Traced.pure trivial
  | cons id rest ih => exact Traced.bind (traced_removeLine id) fun _ _ _ => ih

theorem builds_createLine (d : BranchDraft) : Builds tight doomed (createLine d) s := by
  have hcreate : s.network.Coherent tight →
      (∃ id m, d.create s.network = .ok id m ∧ s.network.Gains tight id ⟨.branch d.kind, none⟩ m) ∨
        d.create.Refuses s.network := fun hs => by
    obtain ⟨id, m, c, hok, hg, -⟩ | hr := (ConnectableDraft.branch d).create_cases hs
    · exact Or.inl ⟨id, m, hok, hg⟩
    · exact Or.inr hr
  exact Builds.told_bind hcreate (fun _ h => by cases h) (fun _ => rfl) (fun _ => rfl) fun _ _ =>
    Builds.pure

theorem builds_warnOfLostLimits (b : Branch) (side : Side) :
    Builds tight doomed (warnOfLostLimits b side) s :=
  Traced.ite (fun _ => Builds.emit rfl rfl) fun _ => Builds.pure

theorem builds_createLineBay (naming : NamingStrategy) {vl : String} (hd : ¬doomed vl) (rail : Rail)
    (base : String) (bay : BayNodes) :
    Builds tight doomed (createLineBay naming vl rail base bay) s := by
  refine Builds.bind (builds_baySections _ _ _) fun rails _ => Traced.network_bind ?_
  refine Builds.bind (builds_createBay naming hd _ _ _ _) fun _ _ => ?_
  exact Traced.ite (fun _ => Builds.emit rfl rfl) fun _ => Builds.pure

theorem builds_createBusBay (naming : NamingStrategy) {vl : String} (hd : ¬doomed vl)
    (bus base : String) : Builds tight doomed (createBusBay naming vl bus base) s := by
  refine Builds.told_bind (fun hs => BusDraft.create_cases hs _) ?_ (fun _ => rfl) (fun _ => rfl)
    fun id _ => Builds.bind (builds_createBusSwitch hd _ _ _) fun _ _ => Builds.pure
  intro _ hx
  cases hx
  exact hd

theorem builds_createTwoBays (naming : NamingStrategy) {vl : String} (hd : ¬doomed vl) (rail : Rail)
    (base1 base2 : String) : Builds tight doomed (createTwoBays naming vl rail base1 base2) s := by
  refine Builds.bind (builds_nextNode vl) fun first _ => ?_
  refine Builds.bind (builds_createLineBay naming hd _ _ _) fun _ _ => ?_
  exact Builds.bind (builds_createLineBay naming hd _ _ _) fun _ _ => Builds.pure

theorem builds_pruneLeft (left : List (String × Terminal)) :
    Builds tight doomed (pruneLeft left) s := by
  induction left generalizing s with
  | nil => exact Builds.pure
  | cons x rest ih => exact Builds.bind (builds_pruneBays _ _) fun _ _ => ih

theorem traced_removeSubstation (id : String) :
    Traced tight doomed
      (edit (Edit.removeSubstation id) >>= fun _ => emit (.substationRemoved id)) s
      fun _ _ => True := by
  refine Traced.told fun hs => ?_
  obtain ⟨hrun, hm, hmem, -⟩ | ⟨-, hr⟩ := Edit.removeSubstation_cases hs id
  · exact Or.inl ⟨(), _, hrun, .lose hm (hs.mem_index (.substation hmem)) rfl rfl rfl, trivial⟩
  · exact Or.inr hr

theorem traced_removeVoltageLevelLeft {vl : String} (hd : doomed vl) :
    Traced tight doomed (removeVoltageLevelLeft vl) s fun _ _ => True := by
  refine Traced.network_bind (Traced.ite (fun _ => Traced.emit rfl rfl trivial) fun _ => ?_)
  refine Traced.told_bind fun hs => ?_
  obtain ⟨hrun, hm, hmem, -⟩ | ⟨-, hr⟩ := Edit.removeVoltageLevel_cases hs vl
  · refine Or.inl ⟨(), _, hrun, .clear hm hd hmem rfl, ?_⟩
    split
    · exact Traced.pure trivial
    · exact Traced.network_bind (Traced.ite (fun _ => traced_removeSubstation _) fun _ =>
        Traced.pure trivial)
  · exact Or.inr hr

end Run

open Run

variable {tight : Prop} {doomed : String → Prop} {s : Session}

theorem builds_substation (x : Substation) :
    Builds tight doomed (edit x.create >>= fun _ => emit (.substationCreated x.id)) s := by
  refine Traced.told fun hs => ?_
  obtain ⟨m, hok, hg⟩ | hr := Substation.create_cases hs x
  · exact Or.inl ⟨x.id, m, hok, .gain hg (fun _ h => by cases h) rfl rfl, hg.keeps⟩
  · exact Or.inr hr

theorem builds_voltageLevel (d : VoltageLevelDraft) :
    Builds tight doomed (edit d.create >>= fun _ => emit (.voltageLevelCreated d.id)) s := by
  refine Traced.told fun hs => ?_
  obtain ⟨m, hok, hg⟩ | hr := VoltageLevelDraft.create_cases hs d
  · exact Or.inl ⟨d.id, m, hok, .gain hg (fun _ h => by cases h) rfl rfl, hg.keeps⟩
  · exact Or.inr hr

namespace LineTap

omit [Numbering] in
theorem kind_of_newSubstation_error {m : LineTap} {f : Fault} (h : m.newSubstation = .error f) :
    f.kind ≠ .internal := by
  unfold newSubstation at h
  split at h <;> cases h
  simp [Fault.kind]

theorem builds_createVoltageLevel (m : LineTap) (line : Branch) (substation : Option String) :
    Builds tight doomed (m.createVoltageLevel line substation) s := by
  have hlevel : ∀ t, Builds tight doomed (do
      let near := (← network).voltageLevels[line.terminal1.voltageLevel]?
      let draft : VoltageLevelDraft :=
        { id := m.voltageLevel, name := m.voltageLevelName, substation, fictitious := true
          nominalV := (near.map (·.nominalV)).getD undefinedValue }
      let _ ← edit draft.create
      emit (.voltageLevelCreated m.voltageLevel)) t :=
    fun t => Traced.network_bind (builds_voltageLevel _)
  cases substation with
  | none => exact hlevel s
  | some id => exact Builds.bind_bind (builds_substation _) fun _ => hlevel

theorem traced_addConnection (vl : String) (a b : Node) :
    Traced tight doomed (edit (Edit.addConnection vl a b)) s fun _ _ => True := by
  refine Traced.quiet fun hs => ?_
  obtain ⟨m, hok, hm, hindex, -⟩ | hr := Edit.addConnection_cases hs vl a b
  · exact Or.inl ⟨(), m, hok, hm, hindex, trivial⟩
  · exact Or.inr hr

theorem traced_splitLine (m : LineTap) (line : Branch) :
    Traced tight doomed (m.splitLine line) s fun _ _ => True := by
  refine Traced.network_bind (Traced.bind (traced_removeLine _) fun _ _ _ => ?_)
  refine Traced.bind (builds_createLine _) fun _ _ _ => ?_
  exact Traced.bind (builds_createLine _) fun _ _ _ => Traced.pure trivial

theorem builds_createTarget (naming : NamingStrategy) (hd : ∀ vl, ¬doomed vl) (base : String)
    (j : Junction) : Builds tight doomed (createTarget naming base j) s := by
  cases j with
  | bus id vl => exact builds_createBusBay naming (hd vl) _ _
  | busbarSection id vl node =>
    refine Builds.bind (builds_nextNode vl) fun first _ => ?_
    exact Builds.bind (builds_createLineBay naming (hd vl) _ _ _) fun _ _ => Builds.pure

theorem traced_steps (m : LineTap) (naming : NamingStrategy) (hd : ∀ vl, ¬doomed vl) :
    Traced tight doomed (m.steps naming) s fun _ _ => True := by
  refine Traced.bind (traced_line _) fun line t _ => ?_
  refine Traced.bind (traced_checkPercent _) fun _ t _ => ?_
  refine Traced.bind (traced_junction _) fun j t _ => ?_
  dsimp only
  cases hsub : m.newSubstation with
  | error f => exact Traced.refuse (kind_of_newSubstation_error hsub)
  | ok substation =>
    refine Traced.network_bind ?_
    refine Traced.ite (fun _ => Traced.refuse_bind (by simp [Fault.kind])) fun _ => ?_
    refine Traced.bind (traced_checkNewIds _ _ _) fun _ t _ => ?_
    refine Traced.bind (m.builds_createVoltageLevel _ _) fun _ t _ => ?_
    refine Traced.bind (m.traced_splitLine _) fun _ t _ => ?_
    refine Traced.bind (traced_addConnection _ _ _) fun _ t _ => ?_
    refine Traced.bind (traced_addConnection _ _ _) fun _ t _ => ?_
    refine Traced.bind (traced_addConnection _ _ _) fun _ t _ => ?_
    refine Traced.bind (builds_createTarget naming hd _ j) fun far t _ => ?_
    refine Traced.bind (builds_createLine _) fun tap t _ => ?_
    exact Traced.emit rfl rfl trivial

end LineTap

namespace LineCut

theorem builds_createTargets (naming : NamingStrategy) (hd : ∀ vl, ¬doomed vl)
    (base1 base2 : String) (j : Junction) :
    Builds tight doomed (createTargets naming base1 base2 j) s := by
  cases j with
  | bus id vl => exact Builds.pure
  | busbarSection id vl node => exact builds_createTwoBays naming (hd vl) _ _ _

theorem traced_steps (m : LineCut) (naming : NamingStrategy) (hd : ∀ vl, ¬doomed vl) :
    Traced tight doomed (m.steps naming) s fun _ _ => True := by
  refine Traced.bind (traced_line _) fun line t _ => ?_
  refine Traced.bind (traced_checkPercent _) fun _ t _ => ?_
  refine Traced.bind (traced_junction _) fun j t _ => ?_
  refine Traced.bind (traced_checkNewIds _ _ _) fun _ t _ => ?_
  refine Traced.network_bind (Traced.bind (traced_removeLine _) fun _ t _ => ?_)
  refine Traced.bind (builds_createTargets naming hd _ _ j) fun ends t _ => ?_
  refine Traced.bind (builds_createLine _) fun _ t _ => ?_
  refine Traced.bind (builds_createLine _) fun _ t _ => ?_
  exact Traced.emit rfl rfl trivial

end LineCut

theorem TapRemoval.traced_steps (m : TapRemoval) (hd : ∀ vl, doomed vl) :
    Traced tight doomed m.steps s fun _ _ => True := by
  refine Traced.bind (traced_line _) fun line1 t _ => ?_
  refine Traced.bind (traced_line _) fun line2 t _ => ?_
  refine Traced.bind (traced_line _) fun tap t _ => ?_
  cases teePoint? line1 line2 tap with
  | none => exact Traced.refuse (by simp [Fault.kind])
  | some tee =>
    refine Traced.bind (traced_checkNewIds _ _ _) fun _ t _ => Traced.network_bind ?_
    refine Traced.bind (builds_warnOfLostLimits _ _) fun _ t _ => ?_
    refine Traced.bind (builds_warnOfLostLimits _ _) fun _ t _ => ?_
    refine Traced.bind (traced_removeLines _) fun _ t _ => ?_
    refine Traced.bind (builds_pruneLeft _) fun _ t _ => ?_
    refine Traced.bind (builds_createLine _) fun merged t _ => ?_
    exact Traced.emit_bind rfl rfl (traced_removeVoltageLevelLeft (hd _))

theorem LineMerge.traced_steps (m : LineMerge) (hd : ∀ vl, doomed vl) :
    Traced tight doomed m.steps s fun _ _ => True := by
  refine Traced.bind (traced_line _) fun line1 t _ => ?_
  refine Traced.bind (traced_line _) fun line2 t _ => ?_
  cases meetingPoint? line1 line2 with
  | none => exact Traced.refuse (by simp [Fault.kind])
  | some meeting =>
    refine Traced.bind (traced_checkNewIds _ _ _) fun _ t _ => Traced.network_bind ?_
    refine Traced.bind (builds_warnOfLostLimits _ _) fun _ t _ => ?_
    refine Traced.bind (builds_warnOfLostLimits _ _) fun _ t _ => ?_
    refine Traced.bind (traced_removeLines _) fun _ t _ => ?_
    refine Traced.bind (builds_pruneLeft _) fun _ t _ => ?_
    refine Traced.bind (builds_createLine _) fun merged t _ => ?_
    refine Traced.emit_bind rfl rfl (Traced.network_bind (Traced.ite (fun _ => ?_) fun _ => ?_))
    · exact traced_removeVoltageLevelLeft (hd _)
    · exact Traced.pure trivial

omit [Numbering] in
theorem Branch.opposite_of_sideIn {b : Branch} {vl : String} {side : Side}
    (h : b.sideIn vl = some side) : (b.terminal side.opposite).voltageLevel ≠ vl := by
  unfold sideIn at h
  split at h <;> cases h
  next h1 h2 => simpa [terminal, Side.opposite] using h2
  next h1 h2 => simpa [terminal, Side.opposite] using h1

namespace TeeReplacement

omit [Numbering] in
theorem tapped_ne {line1 line2 tap : Branch} {tee : TeePoint}
    (h : teePoint? line1 line2 tap = some tee) :
    tee.voltageLevel ≠ tappedVoltageLevel tee tap := by
  unfold teePoint? at h
  dsimp only at h
  split at h
  · cases h
  obtain ⟨vl, -, h⟩ := Option.bind_eq_some_iff.mp h
  obtain ⟨side1, -, h⟩ := Option.bind_eq_some_iff.mp h
  obtain ⟨side2, -, h⟩ := Option.bind_eq_some_iff.mp h
  obtain ⟨side3, hside, h⟩ := Option.bind_eq_some_iff.mp h
  cases h
  exact (Branch.opposite_of_sideIn hside).symm

theorem builds_createTargets (naming : NamingStrategy) (base1 base2 : String) (j : Junction)
    (hd : ¬doomed j.voltageLevel) : Builds tight doomed (createTargets naming base1 base2 j) s := by
  cases j with
  | bus id vl =>
    refine Builds.bind (builds_createBusBay naming hd _ _) fun first _ => ?_
    exact Builds.bind (builds_createBusBay naming hd _ _) fun second _ => Builds.pure
  | busbarSection id vl node => exact builds_createTwoBays naming hd _ _ _

/-- New buses and switches go to the voltage level of the junction, which is not
the one that may be removed. -/
theorem traced_steps (m : TeeReplacement) (naming : NamingStrategy)
    (hd : ∀ j, s.network.junction m.target = .ok j → ∀ vl, doomed vl ↔ vl ≠ j.voltageLevel) :
    Traced tight doomed (m.steps naming) s fun _ _ => True := by
  refine Traced.bind (traced_line _) fun line1 t ht => ?_
  subst ht
  refine Traced.bind (traced_line _) fun line2 t ht => ?_
  subst ht
  refine Traced.bind (traced_line _) fun tap t ht => ?_
  subst ht
  cases htee : teePoint? line1 line2 tap with
  | none => exact Traced.refuse (by simp [Fault.kind])
  | some tee =>
    refine Traced.bind (traced_junction _) ?_
    intro j t hx
    obtain ⟨rfl, hj⟩ := hx
    have hd := hd j hj
    refine Traced.ite (fun _ => Traced.refuse_bind (by simp [Fault.kind])) fun hvl => ?_
    have htapped : j.voltageLevel = tappedVoltageLevel tee tap := Decidable.not_not.mp hvl
    have hkept : ¬doomed j.voltageLevel := fun h => (hd _).mp h rfl
    have hleft : doomed tee.voltageLevel := (hd _).mpr (htapped ▸ tapped_ne htee)
    refine Traced.bind (traced_checkNewIds _ _ _) fun _ t _ => Traced.network_bind ?_
    refine Traced.bind (traced_removeLines _) fun _ t _ => ?_
    refine Traced.bind (builds_pruneLeft _) fun _ t _ => ?_
    refine Traced.bind (builds_createTargets naming _ _ j hkept) fun ends t _ => ?_
    refine Traced.bind (builds_createLine _) fun _ t _ => ?_
    refine Traced.bind (builds_createLine _) fun _ t _ => ?_
    refine Traced.bind (traced_removeVoltageLevelLeft hleft) fun _ t _ => ?_
    exact Traced.emit rfl rfl trivial

end TeeReplacement

end Switchyard
