import Switchyard.Modification
import Switchyard.Proofs.FailedMerges
import Switchyard.Proofs.FeederSteps
import Switchyard.Proofs.Splitting
import Switchyard.Proofs.Targets

namespace Switchyard

open Std Network

/-- The ids of the lines that a modification creates after switches and buses. -/
def Modification.lateLines : Modification → List String
  | .lineTap c => [c.tap.id]
  | .lineCut c => [c.line1, c.line2]
  | .teeReplacement c => [c.newLine1, c.newLine2]
  | _ => []

/-- Nothing but a terminal can be at the node. -/
def Network.Bare (n : Network) (vl : String) (node : Node) : Prop :=
  ∀ w, n.inside? vl = some (.nodeBreaker w) → w.edgesAt node = []

/-- The faults met when the lines to be replaced are gone, or a substation is new. -/
inductive LateConflict (n : Network) : Modification → Fault → Prop
  /-- A switch or a bus created on the way has the id of a new line. -/
  | idTaken {m : Modification} {network id : String} {kind : ObjectKind} (hid : id ∈ m.lateLines)
    (hkind : kind = .switch ∨ kind = .bus) (hnew : n.kind? id ≠ some kind) :
    LateConflict n m (.idTaken network kind id)
  /-- A half is to be at the node that the line leaves, where nothing else is. -/
  | nodeReused {c : LineCut} {line : Branch} {side : Side} {vl id : String} {node k : Node}
    {f : Fault}
    (hline : n.line? c.line = some line) (hend : line.terminal side = .atNode vl node)
    (hbare : n.Bare vl node) (htarget : n.junction c.target = .ok (.busbarSection id vl k))
    (hf : f = .nodeShared node vl ∨ f = .nodeTaken node vl c.line1) :
    LateConflict n (.lineCut c) f
  /-- The new voltage level is to have the id that the line still has. -/
  | levelTaken {c : LineTap} {network : String} (hid : c.voltageLevel = c.line)
    (hcreate : c.createSubstation = true) :
    LateConflict n (.lineTap c) (.idTaken network (.branch .line) c.voltageLevel)

variable {C : Set Connectable} {n m : Network} {s t : Session} {l : List Branch} {vl id : String}
  {node : Node}

/-- What is created on the way to new lines. -/
def ObjectKind.IsInner (kind : ObjectKind) : Prop :=
  kind = .switch ∨ kind = .bus

theorem Terminal.eq_atNode {x : Terminal} (hx : x.node? = some node) :
    x = .atNode x.voltageLevel node := by
  obtain ⟨vl, connection⟩ := x
  cases connection with
  | bus bus => cases hx
  | node k =>
    cases hx
    rfl

namespace Network

/-- A node that is there only for connectables besides has no edge. -/
theorem Extended.bare (h : Extended ∅ ∅ C n m) (hnew : n.Unplaced vl node) : m.Bare vl node := by
  intro w' hw'
  obtain ⟨w, hw, hsound, -, ha⟩ := h.toWired.wiring_old (Set.notMem_empty vl) hw'
  refine List.filter_eq_nil_iff.mpr fun e he htouches => ?_
  obtain ⟨k, hk⟩ := mem_values_iff.mp he
  have hold := (ha.edge_iff k e (by simp [switchesAt])).mp hk
  exact hnew w hw (hsound.placed_of_touches hold htouches)

theorem Coherent.ends_apart (h : n.Coherent False) {b : Branch} (hb : n.Keeps id (.branch b)) :
    b.terminal2.Apart b.terminal1 := by
  intro hnode he
  obtain ⟨node, hnode⟩ := Option.isSome_iff_exists.mp hnode
  have htwo := Terminal.eq_atNode hnode
  have hsides : ∀ side ∈ [Side.one, Side.two],
      (side, .atNode b.terminal2.voltageLevel node) ∈ (Connectable.branch b).terminals := by
    rw [← htwo]
    simp [Connectable.terminals, he]
  cases h.side_unique hb (hsides .one (by simp)) (hsides .two (by simp))

theorem Coherent.kind_ne (h : n.Coherent False) (hl : ∀ b ∈ l, n.Keeps b.id (.branch b))
    (hid : id ∈ n.index → id ∈ l.map (·.id)) {kind : ObjectKind} (hkind : kind.IsInner) :
    n.kind? id ≠ some kind := by
  intro hk
  obtain ⟨e, he, rfl⟩ := Option.map_eq_some_iff.mp hk
  obtain ⟨b, hb, rfl⟩ := List.mem_map.mp (hid (mem_iff_exists_getElem?.mpr ⟨e, he⟩))
  have hentry := h.entry_unique ((h.index_iff _ e).mp he) (.connectable (hl b hb))
  subst hentry
  rcases hkind with hk | hk <;> cases hk

end Network

namespace LateConflict

/-- Nothing but a switch or a bus created on the way can have the id of a new line. -/
theorem idTaken_of_index (h : n.Coherent False) (hl : ∀ b ∈ l, n.Keeps b.id (.branch b))
    (hused : id ∈ n.index → id ∈ l.map (·.id)) {k : Modification} (hid : id ∈ k.lateLines)
    {kind : ObjectKind} (hkind : kind.IsInner) {network : String} :
    LateConflict n k (.idTaken network kind id) :=
  .idTaken hid hkind (h.kind_ne hl hused hkind)

/-- A new end at the node of an end of the line is in a bay: a bus has no nodes. -/
theorem nodeReused_of_end {c : LineCut} {line : Branch} {j : Junction} {x : Terminal} {f : Fault}
    (h : Extended ∅ ∅ C m n) (hline : n.line? c.line = some line) (hj : n.junction c.target = .ok j)
    (hx : x ∈ [line.terminal1, line.terminal2]) (hfresh : m.Fresh j x) (hnode : x.node? = some node)
    (hf : f = .nodeShared node x.voltageLevel ∨ f = .nodeTaken node x.voltageLevel c.line1) :
    LateConflict n (.lineCut c) f := by
  obtain ⟨hvl, hnew⟩ := hfresh
  obtain ⟨⟨id, vl, rail, rfl⟩, hnew⟩ := hnew node hnode
  have hside : ∃ side, line.terminal side = x := by
    simp only [List.mem_cons, List.not_mem_nil, or_false] at hx
    rcases hx with rfl | rfl
    · exact ⟨.one, rfl⟩
    · exact ⟨.two, rfl⟩
  obtain ⟨side, hside⟩ := hside
  have hvl : x.voltageLevel = vl := hvl
  have hend : line.terminal side = .atNode vl node := by
    rw [hside, Terminal.eq_atNode hnode, hvl]
  rw [hvl] at hf
  exact .nodeReused hline hend (h.bare hnew) hj hf

end LateConflict

/-- Cutting a line fails at a check, or for a late conflict, if there is room for the bays. -/
theorem LineCut.fails_steps (c : LineCut) (hs : s.network.Coherent False)
    (hroom : s.network.RoomAt c.target 4) (naming : NamingStrategy) :
    (c.steps naming).Fails s fun f t =>
      t.network = s.network ∨ LateConflict s.network (.lineCut c) f := by
  refine (Run.spares_line c.line).or_bind fun line _ hfound => ?_
  obtain ⟨hline, rfl⟩ := Run.line_eq_ok.mp hfound
  refine (Run.spares_checkPercent _).or_bind fun _ _ hpercent => ?_
  obtain rfl := Run.checkPercent_eq_ok hpercent
  refine (Run.spares_junction c.target).or_bind fun j _ htarget => ?_
  obtain ⟨hj, rfl⟩ := Run.junction_eq_ok.mp htarget
  refine (Run.spares_checkNewIds _ _ _).or_bind fun _ _ hids => ?_
  obtain ⟨hused, hnodup, -⟩ := Run.checkNewIds_spec hids
  obtain rfl := Run.checkNewIds_eq_ok hids
  refine Run.Fails.network_bind ?_
  have hkept := hs.keeps_line hline
  refine (Run.sure_removeLine hs hkept).fails.bind fun _ u hremove => ?_
  have hone : Extended ∅ ∅ (Branch.connectables [line]) u.network s.network := by
    rw [Branch.connectables_singleton]
    exact .of_removeConnectable hs hkept rfl (Run.removeLine_eq_ok hremove)
  have hgone : Replaced (·.IsInner) (Branch.connectables [line]) ∅ s.network u.network :=
    ⟨⟨u.network, hone, .refl _⟩, hone.base⟩
  have hstands := hgone.stands (hs.stands hj)
  have hroom := hone.room_base (Set.notMem_empty _) (hroom j hj)
  refine (sure_createTargets hone.base hstands hroom).fails.bind fun ends v hends => ?_
  have hready := (rewires_createTargets (Or.inl rfl) j).replaced hgone hends
  obtain ⟨hfresh, hfree, hapart⟩ := newEnds_createTargets hone.base hstands hroom hends
  have hold : ∀ x ∈ [line.terminal1, line.terminal2], v.network.Free x := by
    simpa using ⟨hready.free_end ⟨line, by simp, rfl⟩ .one,
      hready.free_end ⟨line, by simp, rfl⟩ .two⟩
  have hne : c.line1 ≠ c.line2 := by simpa using hnodup
  refine Run.Fails.createHalves_bind hready rfl rfl rfl rfl hold hfree (hs.ends_apart hkept) hapart
    rfl rfl (fun id hid hin => Branch.exists_connectable (hused id hid hin)) hne
    (fun f t hf => Or.inr ?_) fun t _ => Run.fails_emit _
  cases hf with
  | shared hx hin hk => exact .nodeReused_of_end hone hline hj hx (hfresh _ hin) hk (Or.inl rfl)
  | taken hx hin hk => exact .nodeReused_of_end hone hline hj hx (hfresh _ hin) hk (Or.inr rfl)
  | @idTaken network kind id hid hkind =>
    have hid : id = c.line1 ∨ id = c.line2 := hid
    have hmem : id ∈ (Modification.lineCut c).lateLines := by
      simpa [Modification.lateLines] using hid
    exact .idTaken_of_index hs (l := [line]) (by simpa using hkept) (hused _ hmem) hmem hkind

/-- Replacing a tee point fails at a check, or for a late conflict. The far ends of
the new lines are not at one node, since they are not in one voltage level. -/
theorem TeeReplacement.fails_steps (c : TeeReplacement) (hs : s.network.Coherent False)
    (hroom : s.network.RoomAt c.target 4) (naming : NamingStrategy) :
    (c.steps naming).Fails s fun f t =>
      t.network = s.network ∨ LateConflict s.network (.teeReplacement c) f := by
  refine (Run.spares_line c.line1).or_bind fun a _ hline1 => ?_
  obtain ⟨ha, rfl⟩ := Run.line_eq_ok.mp hline1
  refine (Run.spares_line c.line2).or_bind fun b _ hline2 => ?_
  obtain ⟨hb, rfl⟩ := Run.line_eq_ok.mp hline2
  refine (Run.spares_line c.tap).or_bind fun tap _ hline3 => ?_
  obtain ⟨htap, rfl⟩ := Run.line_eq_ok.mp hline3
  cases htee : teePoint? a b tap with
  | none => exact (Run.spares_refuse _).mono fun _ _ => Or.inl
  | some tee =>
    refine (Run.spares_junction c.target).or_bind fun j _ htarget => ?_
    obtain ⟨hj, rfl⟩ := Run.junction_eq_ok.mp htarget
    refine Run.Fails.check_bind (Or.inl rfl) fun hvl => ?_
    refine (Run.spares_checkNewIds _ _ _).or_bind fun _ _ hids => ?_
    obtain ⟨hused, hnodup, -⟩ := Run.checkNewIds_spec hids
    obtain rfl := Run.checkNewIds_eq_ok hids
    refine Run.Fails.network_bind ?_
    have hkept : ∀ x ∈ [a, b, tap], s.network.Keeps x.id (.branch x) := by
      simp [hs.keeps_line ha, hs.keeps_line hb, hs.keeps_line htap]
    refine Run.Fails.removeLines_bind (K := (·.IsInner)) hs hkept (by simp [ne_of_teePoint htee])
      tee.left_eq fun u hgone hleft => ?_
    have hstands := hgone.stands (hs.stands hj)
    have hroom := hleft _ _ (hroom j hj)
    refine (sure_createTargets hgone.coherent hstands hroom).fails.bind fun ends v hends => ?_
    have hready := (rewires_createTargets (Or.inl rfl) (Or.inr rfl) j).replaced hgone hends
    obtain ⟨hfresh, hfree, hapart⟩ := newEnds_createTargets hgone.coherent hroom hends
    obtain ⟨hside1, -, -, hfar⟩ := teePoint_spec htee
    simp only [List.nodup_cons, List.mem_cons, List.not_mem_nil, or_false, not_or] at hfar
    obtain ⟨⟨hab, hac⟩, hbc, -⟩ := hfar
    have hold : ∀ x ∈ [a.terminal tee.side1.opposite, b.terminal tee.side2.opposite],
        v.network.Free x := by
      simpa using ⟨hready.free_end ⟨a, by simp, rfl⟩ _, hready.free_end ⟨b, by simp, rfl⟩ _⟩
    have hfars : (b.terminal tee.side2.opposite).Apart (a.terminal tee.side1.opposite) :=
      fun _ he => hab (congrArg Terminal.voltageLevel he.symm)
    have hclash : ∀ x ∈ [a.terminal tee.side1.opposite, b.terminal tee.side2.opposite],
        x ∉ [ends.first, ends.second] := by
      intro x hx hin
      have htapped : x.voltageLevel = tap.endOf tee.side3.opposite :=
        (hfresh x hin).voltageLevel.trans (not_not.mp hvl)
      simp only [List.mem_cons, List.not_mem_nil, or_false] at hx
      rcases hx with rfl | rfl
      · exact hac htapped
      · exact hbc htapped
    have hne : c.newLine1 ≠ c.newLine2 := by simpa using hnodup
    refine Run.Fails.createHalves_bind hready rfl rfl rfl rfl hold hfree hfars hapart rfl rfl
      (fun id hid hin => Branch.exists_connectable (hused id hid hin)) hne
      (fun f t hf => Or.inr ?_) fun t ht => ?_
    · cases hf with
      | shared hx hin hk => exact absurd hin (hclash _ hx)
      | taken hx hin hk => exact absurd hin (hclash _ hx)
      | @idTaken network kind id hid hkind =>
        have hid : id = c.newLine1 ∨ id = c.newLine2 := hid
        have hmem : id ∈ (Modification.teeReplacement c).lateLines := by
          simpa [Modification.lateLines] using hid
        exact .idTaken_of_index hs hkept (hused _ hmem) hmem hkind
    · have hvl := ht.mem_voltageLevels (hs.mem_of_sideIn (hs.keeps_line ha) hside1)
      exact (Run.sure_removeVoltageLevelLeft ht.coherent hvl).fails.bind fun _ _ _ =>
        Run.fails_emit _

end Switchyard
