import Switchyard.Modification
import Switchyard.Proofs.CutRoundTrip
import Switchyard.Proofs.FailedMerges
import Switchyard.Proofs.Handover
import Switchyard.Proofs.TeeRemovals

namespace Switchyard

open Std Network

variable {X : Set String} {n m k : Network} {l : List Branch} {a b c : Branch} {vl id : String}
  {side side1 side2 : Side} {s t u v w : Session}

/-- The terminals of a line, in side order. -/
def Branch.terminals (b : Branch) : List Terminal :=
  [b.terminal1, b.terminal2]

/-- The line leads from one end in the voltage level to `far` in another one. -/
def Branch.LeadsTo (b : Branch) (vl : String) (far : Terminal) : Prop :=
  far.voltageLevel ≠ vl ∧ ∃ side, b.endOf side = vl ∧ b.terminal side.opposite = far

namespace Branch

theorem leadsTo_of_sideIn (h : b.sideIn vl = some side) :
    b.LeadsTo vl (b.terminal side.opposite) :=
  ⟨endOf_opposite_ne h, side, endOf_of_sideIn h, rfl⟩

theorem filter_terminals_far (h : b.sideIn vl = some side) :
    b.terminals.filter (·.voltageLevel = b.endOf side.opposite) =
      [b.terminal side.opposite] := by
  have hnear := endOf_of_sideIn h
  have hfar := (endOf_opposite_ne h).symm
  cases side <;> simp_all [terminals, endOf, terminal, Side.opposite]

theorem filter_terminals_off (h : b.sideIn vl = some side) {x : String} (hnear : x ≠ vl)
    (hfar : x ≠ b.endOf side.opposite) : b.terminals.filter (·.voltageLevel = x) = [] := by
  have hends := ends_subset h
  simp only [List.filter_eq_nil_iff, terminals, List.forall_mem_cons, List.not_mem_nil,
    false_implies, implies_true, and_true, decide_eq_true_eq]
  simp only [ends, List.cons_subset, List.nil_subset, and_true, List.mem_cons, List.not_mem_nil,
    or_false] at hends
  grind

end Branch

/-- The lines `l` are gone and the line `c` is in their place. The voltage levels
`X` may have changed inside, the other ones only lost and got those terminals. -/
structure Network.Relined (X : Set String) (l : List Branch) (c : Branch) (n m : Network) :
    Prop where
  coherent : m.Coherent False
  shell : ∀ x, m.shell? x = n.shell? x
  substations : m.substations = n.substations
  keeps_iff : ∀ id d, m.Keeps id d ↔
    n.Keeps id d ∧ id ∉ l.map (·.id) ∨ id = c.id ∧ d = .branch c
  gone : ∀ id ∈ l.map (·.id), id ≠ c.id → id ∉ m.index
  inside : ∀ x ∉ X, m.inside? x = (n.inside? x).map fun t =>
    ([(Side.one, c.terminal1), (.two, c.terminal2)].filter (·.2.voltageLevel = x)).foldl
      (fun u y => u.seated y.2 ⟨c.id, y.1⟩)
      (((l.flatMap (·.terminals)).filter (·.voltageLevel = x)).foldl Topology.vacated t)

theorem Run.keeps_removeLines (hs : s.network.Coherent False)
    (hl : ∀ b ∈ l, s.network.Keeps b.id (.branch b)) (hnodup : l.Nodup)
    (hremove : removeLines (l.map (·.id)) s = .ok () u) {e : Connectable} :
    u.network.Keeps id e ↔ s.network.Keeps id e ∧ id ∉ l.map (·.id) := by
  have hgone := of_removeLines hs hl hnodup hremove
  rw [hgone.keeps_iff]
  constructor
  · intro he
    refine ⟨Or.inl he, fun hmem => ?_⟩
    obtain ⟨x, hx, rfl⟩ := List.mem_map.mp hmem
    exact hgone.fresh (.branch x) ⟨x, hx, rfl⟩ e he
  · rintro ⟨he | ⟨rfl, x, hx, rfl⟩, hnot⟩
    · exact he
    · exact absurd (List.mem_map_of_mem hx) hnot

/-- Lines that are removed with bays in the voltage levels `X`, and a line that is
made between two terminals of theirs elsewhere. -/
theorem Run.relined (hs : s.network.Coherent False)
    (hl : ∀ b ∈ l, s.network.Keeps b.id (.branch b)) (hnodup : l.Nodup)
    {left : List (String × Terminal)} (hleft : ∀ y ∈ left, y.2.voltageLevel ∈ X)
    (hremove : removeLines (l.map (·.id)) s = .ok () u) (hprune : pruneLeft left u = .ok () v)
    {d : BranchDraft} (h1 : d.terminal1 = some (a.terminal side1))
    (h2 : d.terminal2 = some (b.terminal side2)) (hown : d.unique = false)
    (hcreate : createLine d v = .ok id w) :
    s.network.Relined X l (d.branch (a.terminal side1) (b.terminal side2) d.id) w.network := by
  have hid := createLine_id h1 h2 hown hcreate
  subst hid
  have hgone := of_removeLines hs hl hnodup hremove
  obtain ⟨hv, hsame⟩ := sameOff_pruneLeft hgone.base hleft hprune
  have hpruned : Extended ∅ ∅ ∅ v.network v.network := .refl hv
  have hnew := extended_createNamedLine hpruned h1 h2 hown hcreate
  rw [insert_empty_eq] at hnew
  have hreplaced := replaced_createLine (((rewires_pruneLeft left).replaced
    (replaced_removeLines (K := fun _ => False) hs hl hnodup hremove) hprune)) h1 h2 hcreate
  refine ⟨hnew.coherent, fun x => ?_, ?_, fun id e => ?_, fun id hmem hne hm => ?_, fun x hx => ?_⟩
  · rw [hnew.shell, hsame.shell, hgone.shell]
  · rw [hnew.substations, hsame.substations, hgone.substations]
  · rw [hnew.keeps_iff, hsame.keeps_iff, keeps_removeLines hs hl hnodup hremove,
      Set.mem_singleton_iff]
    refine or_congr_right ⟨fun h => ⟨?_, h.2⟩, fun h => ⟨?_, h.2⟩⟩
    · rw [← h.1, h.2]
      rfl
    · rw [h.1, h.2]
      rfl
  · obtain ⟨e, he⟩ := mem_iff_exists_getElem?.mp hm
    refine hreplaced.kind_of_index (fun _ => Branch.exists_connectable hmem) ?_ he
    rintro c (rfl | hc)
    · exact hne.symm
    · cases hc
  · rw [inside?_createLine h1 h2 hcreate, inside?, hsame.level x hx, ← inside?,
      inside?_of_losesLines (losesLines_of_removeLines hs hl hnodup hremove), Option.map_map]
    rfl

/-- The voltage level with another side at the terminal, and all else the same. -/
def VoltageLevel.handedOver (v : VoltageLevel) (x : Terminal) (a : Attachment) : VoltageLevel :=
  { v with topology := v.topology.handedOver x a }

/-- The merge of two lines where they meet. A third line may be removed there. -/
structure Joint where
  line1 : String
  line2 : String
  tap : Option String
  merged : String

def Joint.lines (j : Joint) : List String :=
  j.line1 :: j.line2 :: j.tap.toList

/-- What a modification that merges two lines merges. -/
def Modification.joint? : Modification → Option Joint
  | .tapRemoval c => some ⟨c.line1, c.line2, some c.tap, c.merged⟩
  | .lineMerge c => some ⟨c.line1, c.line2, none, c.merged⟩
  | _ => none

namespace Network

/-- Only busbar sections and the lines of the joint are in the voltage level. -/
def Deserted (n : Network) (j : Joint) (vl : String) : Prop :=
  ∀ id c, n.Keeps id c → c.isIn vl = true → c.isBusbarSection = false → id ∈ j.lines

def Fictitious (n : Network) (vl : String) : Prop :=
  ∃ v, n.voltageLevels[vl]? = some v ∧ v.fictitious = true

theorem fictitious_iff :
    n.Fictitious vl ↔ n.voltageLevels[vl]?.any (·.fictitious) = true := by
  simp [Fictitious, Option.any_eq_true]

/-- The lines `a` and `b` from the voltage level `vl` are made one line `c` from far
end to far end. -/
structure Merges (n : Network) (j : Joint) (vl : String) (a b c : Branch) (m : Network) :
    Prop where
  met : vl ∈ n.voltageLevels
  line1 : n.line? j.line1 = some a
  line2 : n.line? j.line2 = some b
  leads1 : a.LeadsTo vl c.terminal1
  leads2 : b.LeadsTo vl c.terminal2
  apart : c.terminal1.voltageLevel ≠ c.terminal2.voltageLevel
  tap : ∀ x, j.tap = some x → ∃ d far, n.line? x = some d ∧ d.LeadsTo vl far
  gone : ∀ x ∈ j.lines, x ≠ j.merged → x ∉ m.index
  line : m.line? j.merged = some c
  keeps_iff : ∀ id d, d.holder ≠ some vl →
    (m.Keeps id d ↔ n.Keeps id d ∧ id ∉ j.lines ∨ id = j.merged ∧ d = .branch c)
  end1 : m.voltageLevels[c.terminal1.voltageLevel]? =
    n.voltageLevels[c.terminal1.voltageLevel]?.map (·.handedOver c.terminal1 ⟨j.merged, .one⟩)
  end2 : m.voltageLevels[c.terminal2.voltageLevel]? =
    n.voltageLevels[c.terminal2.voltageLevel]?.map (·.handedOver c.terminal2 ⟨j.merged, .two⟩)
  level_gone : vl ∉ m.voltageLevels ↔ n.Deserted j vl ∧ (j.tap = none → n.Fictitious vl)
  substation_gone : ∀ x, n.InSubstation vl x →
    (x ∉ m.substations ↔ vl ∉ m.voltageLevels ∧ ∀ y, n.InSubstation y x → y = vl)

/-- The lines of a joint meet in the voltage level `vl`, where each has one end. The
far ends of the first two are alone in their voltage levels. -/
structure Joined (n : Network) (j : Joint) (vl : String) (a b : Branch) (rest : List Branch)
    (side1 side2 : Side) : Prop where
  kept : ∀ x ∈ a :: b :: rest, n.Keeps x.id (.branch x)
  nodup : (a :: b :: rest).Nodup
  ids : (a :: b :: rest).map (·.id) = j.lines
  line1 : n.line? j.line1 = some a
  line2 : n.line? j.line2 = some b
  tap : ∀ x, j.tap = some x → ∃ d side, n.line? x = some d ∧ d.sideIn vl = some side
  sideIn1 : a.sideIn vl = some side1
  sideIn2 : b.sideIn vl = some side2
  apart : a.endOf side1.opposite ≠ b.endOf side2.opposite
  alone1 : ((a :: b :: rest).flatMap (·.terminals)).filter
    (·.voltageLevel = a.endOf side1.opposite) = [a.terminal side1.opposite]
  alone2 : ((a :: b :: rest).flatMap (·.terminals)).filter
    (·.voltageLevel = b.endOf side2.opposite) = [b.terminal side2.opposite]

theorem joined_of_teePoint (h : n.Coherent False) {c : TapRemoval} {tap : Branch} {tee : TeePoint}
    (ha : n.line? c.line1 = some a) (hb : n.line? c.line2 = some b)
    (htap : n.line? c.tap = some tap) (htee : teePoint? a b tap = some tee) :
    n.Joined ⟨c.line1, c.line2, some c.tap, c.merged⟩ tee.voltageLevel a b [tap] tee.side1
      tee.side2 := by
  obtain ⟨h1, h2, h3, hends⟩ := teePoint_spec htee
  have hnear1 := Branch.endOf_opposite_ne h1
  have hnear2 := Branch.endOf_opposite_ne h2
  simp only [List.nodup_cons, List.mem_cons, List.not_mem_nil, or_false, not_or] at hends
  obtain ⟨⟨hab, hac⟩, hbc, -⟩ := hends
  exact
    { kept := by simp [h.keeps_line ha, h.keeps_line hb, h.keeps_line htap]
      nodup := by simp [ne_of_teePoint htee]
      ids := by simp [Joint.lines, h.line_id ha, h.line_id hb, h.line_id htap]
      line1 := ha
      line2 := hb
      tap := by
        rintro _ ⟨⟩
        exact ⟨tap, _, htap, h3⟩
      sideIn1 := h1
      sideIn2 := h2
      apart := hab
      alone1 := by
        simp [Branch.filter_terminals_far h1, Branch.filter_terminals_off h2 hnear1 hab,
          Branch.filter_terminals_off h3 hnear1 hac]
      alone2 := by
        simp [Branch.filter_terminals_off h1 hnear2 (Ne.symm hab), Branch.filter_terminals_far h2,
          Branch.filter_terminals_off h3 hnear2 hbc] }

theorem joined_of_meetingPoint (h : n.Coherent False) {c : LineMerge} {p : MeetingPoint}
    (ha : n.line? c.line1 = some a) (hb : n.line? c.line2 = some b)
    (hmeet : meetingPoint? a b = some p) :
    n.Joined ⟨c.line1, c.line2, none, c.merged⟩ p.voltageLevel a b [] p.side1 p.side2 := by
  obtain ⟨h1, h2, -⟩ := meetingPoint_spec hmeet
  have hapart := ends_of_meetingPoint hmeet
  have hnear1 := Branch.endOf_opposite_ne h1
  have hnear2 := Branch.endOf_opposite_ne h2
  exact
    { kept := by simp [h.keeps_line ha, h.keeps_line hb]
      nodup := by simpa using Branch.ne_of_endOf h1 h2 hapart
      ids := by simp [Joint.lines, h.line_id ha, h.line_id hb]
      line1 := ha
      line2 := hb
      tap := by simp
      sideIn1 := h1
      sideIn2 := h2
      apart := hapart
      alone1 := by
        simp [Branch.filter_terminals_far h1, Branch.filter_terminals_off h2 hnear1 hapart]
      alone2 := by
        simp [Branch.filter_terminals_off h1 hnear2 hapart.symm,
          Branch.filter_terminals_far h2] }

theorem getElem?_voltageLevels_of_inside {x : String} {f : Topology → Topology}
    (hshell : m.shell? x = n.shell? x) (hinside : m.inside? x = (n.inside? x).map f) :
    m.voltageLevels[x]? =
      n.voltageLevels[x]?.map fun v => { v with topology := f v.topology } := by
  unfold shell? at hshell
  unfold inside? at hinside
  cases hm : m.voltageLevels[x]? with
  | none =>
    cases hn : n.voltageLevels[x]? with
    | none => rfl
    | some v => simp [hm, hn] at hshell
  | some u =>
    cases hn : n.voltageLevels[x]? with
    | none => simp [hm, hn] at hshell
    | some v =>
      simp only [hm, hn, Option.map_some, Option.some.injEq] at hshell hinside ⊢
      cases u
      cases v
      simp only [VoltageLevel.shell, VoltageLevel.mk.injEq, and_true] at hshell
      simp_all

namespace Relined

/-- A terminal that one of the lines left and the new line took changed hands, and
nothing else did in its voltage level. -/
theorem handedOver (hn : n.Coherent False) (hl : ∀ b ∈ l, n.Keeps b.id (.branch b))
    (h : n.Relined X l c m) {x : Terminal} (hx : x.voltageLevel ∉ X)
    (hleft : (l.flatMap (·.terminals)).filter (·.voltageLevel = x.voltageLevel) = [x])
    (htaken : [(Side.one, c.terminal1), (.two, c.terminal2)].filter
      (·.2.voltageLevel = x.voltageLevel) = [(side, x)]) :
    m.voltageLevels[x.voltageLevel]? =
      n.voltageLevels[x.voltageLevel]?.map (·.handedOver x ⟨c.id, side⟩) := by
  have hmem : x ∈ l.flatMap (·.terminals) := by
    have hm : x ∈ (l.flatMap (·.terminals)).filter (·.voltageLevel = x.voltageLevel) := by
      simp [hleft]
    exact (List.mem_filter.mp hm).1
  obtain ⟨b, hb, hmem⟩ := List.mem_flatMap.mp hmem
  have hattached : ∃ e, n.Attaches e x := by
    simp only [Branch.terminals, List.mem_cons, List.not_mem_nil, or_false] at hmem
    rcases hmem with rfl | rfl
    · exact ⟨⟨b.id, .one⟩, _, hl b hb, by simp [Connectable.terminals]⟩
    · exact ⟨⟨b.id, .two⟩, _, hl b hb, by simp [Connectable.terminals]⟩
  obtain ⟨e, he⟩ := hattached
  have hinside := h.inside x.voltageLevel hx
  rw [hleft, htaken] at hinside
  have hsame : m.inside? x.voltageLevel =
      (n.inside? x.voltageLevel).map (·.handedOver x ⟨c.id, side⟩) := by
    rw [hinside]
    exact Option.map_congr fun t ht => hn.seated_vacated he ht
  exact getElem?_voltageLevels_of_inside (h.shell _) hsame

/-- Equipment is left where the lines met unless only they were there. -/
theorem equipmentIn_eq_nil {j : Joint} (h : n.Relined X l c m) (hids : l.map (·.id) = j.lines)
    (h1 : c.terminal1.voltageLevel ≠ vl) (h2 : c.terminal2.voltageLevel ≠ vl) :
    m.equipmentIn vl = [] ↔ n.Deserted j vl := by
  have hout := Branch.isIn_eq_false h1 h2
  rw [equipmentIn_eq_nil_iff, Deserted, ← hids]
  simp only [h.keeps_iff]
  grind

theorem inSubstation_iff (h : n.Relined X l c m) : m.InSubstation vl id ↔ n.InSubstation vl id := by
  rw [Network.inSubstation_iff, Network.inSubstation_iff, h.shell]

theorem fictitious_iff (h : n.Relined X l c m) : m.Fictitious vl ↔ n.Fictitious vl := by
  have hany : ∀ k : Network, k.Fictitious vl ↔ (k.shell? vl).any (·.fictitious) = true := by
    intro k
    rw [Network.fictitious_iff, shell?, Option.any_map]
    rfl
  rw [hany, hany, h.shell]

theorem substation_cleared (hn : n.Coherent False) (h : n.Relined X l c m)
    (hvl : n.InSubstation vl id) : id ∉ (m.cleared vl).substations ↔
      vl ∉ (m.cleared vl).voltageLevels ∧ ∀ x, n.InSubstation x id → x = vl := by
  obtain ⟨v, hv, hs⟩ := hvl
  have hid : id ∈ m.substations := h.substations ▸ hn.substation_mem vl v id hv hs
  have hlevel : vl ∈ m.voltageLevels :=
    (mem_voltageLevels_of_shell h.shell).mpr (mem_iff_exists_getElem?.mpr ⟨v, hv⟩)
  rw [not_mem_substations_cleared (h.inSubstation_iff.mpr ⟨v, hv, hs⟩) hid,
    mem_voltageLevels_cleared hlevel, not_not]
  simp only [h.inSubstation_iff]

end Relined

/-- The networks differ in the voltage level `vl` only, and in what is inside. -/
structure SameBut (vl : String) (m k : Network) : Prop where
  keeps_iff : ∀ id d, d.holder ≠ some vl → (k.Keeps id d ↔ m.Keeps id d)
  level : ∀ x, x ≠ vl → k.voltageLevels[x]? = m.voltageLevels[x]?
  index : ∀ x ∈ k.index, x ∈ m.index

theorem SameBut.refl (m : Network) (vl : String) : m.SameBut vl m :=
  ⟨fun _ _ _ => Iff.rfl, fun _ _ => rfl, fun _ hx => hx⟩

theorem sameBut_cleared (m : Network) (vl : String) : m.SameBut vl (m.cleared vl) :=
  ⟨fun _ _ => keeps_cleared, fun _ => getElem?_voltageLevels_cleared,
    fun _ => mem_index_of_cleared⟩

/-- Once the line is made, only the voltage level where the lines met changes. -/
theorem Joined.merges {j : Joint} {rest : List Branch} (hj : n.Joined j vl a b rest side1 side2)
    (hn : n.Coherent False) (hrel : n.Relined X (a :: b :: rest) c m) (hid : c.id = j.merged)
    (hkind : c.kind = .line) (h1 : c.terminal1 = a.terminal side1.opposite)
    (h2 : c.terminal2 = b.terminal side2.opposite) (hX1 : a.endOf side1.opposite ∉ X)
    (hX2 : b.endOf side2.opposite ∉ X) (hk : m.SameBut vl k)
    (hlevel : vl ∉ k.voltageLevels ↔ m.equipmentIn vl = [] ∧ (j.tap = none → n.Fictitious vl))
    (hsubstation : ∀ x, n.InSubstation vl x →
      (x ∉ k.substations ↔ vl ∉ k.voltageLevels ∧ ∀ y, n.InSubstation y x → y = vl)) :
    n.Merges j vl a b c k := by
  have hfar : (a.terminal side1.opposite).voltageLevel ≠
      (b.terminal side2.opposite).voltageLevel := hj.apart
  have hnear1 : c.terminal1.voltageLevel ≠ vl := h1 ▸ Branch.endOf_opposite_ne hj.sideIn1
  have hnear2 : c.terminal2.voltageLevel ≠ vl := h2 ▸ Branch.endOf_opposite_ne hj.sideIn2
  have htaken1 : [(Side.one, c.terminal1), (.two, c.terminal2)].filter
      (·.2.voltageLevel = (a.terminal side1.opposite).voltageLevel) =
        [(.one, a.terminal side1.opposite)] := by
    simp [h1, h2, hfar.symm]
  have htaken2 : [(Side.one, c.terminal1), (.two, c.terminal2)].filter
      (·.2.voltageLevel = (b.terminal side2.opposite).voltageLevel) =
        [(.two, b.terminal side2.opposite)] := by
    simp [h1, h2, hfar]
  have hside1 := hrel.handedOver hn hj.kept hX1 hj.alone1 htaken1
  have hside2 := hrel.handedOver hn hj.kept hX2 hj.alone2 htaken2
  have hmade : m.Keeps c.id (.branch c) := (hrel.keeps_iff _ _).mpr (Or.inr ⟨rfl, rfl⟩)
  have hkept : k.Keeps c.id (.branch c) :=
      (hk.keeps_iff _ _ (by simp [Connectable.holder])).mpr hmade
  rw [← h1, hid] at hside1
  rw [← h2, hid] at hside2
  rw [hid] at hkept
  exact
    { met := hn.mem_of_sideIn (hn.keeps_line hj.line1) hj.sideIn1
      line1 := hj.line1
      line2 := hj.line2
      leads1 := h1 ▸ Branch.leadsTo_of_sideIn hj.sideIn1
      leads2 := h2 ▸ Branch.leadsTo_of_sideIn hj.sideIn2
      apart := by rwa [h1, h2]
      tap := by
        intro x hx
        obtain ⟨d, side, hd, hside⟩ := hj.tap x hx
        exact ⟨d, _, hd, Branch.leadsTo_of_sideIn hside⟩
      gone := fun x hx hne hm => hrel.gone x (hj.ids ▸ hx) (hid ▸ hne) (hk.index x hm)
      line := line?_eq_some_iff.mpr ⟨hkept, hkind⟩
      keeps_iff := fun id d hd => by rw [hk.keeps_iff id d hd, hrel.keeps_iff, hj.ids, hid]
      end1 := (hk.level _ hnear1).trans hside1
      end2 := (hk.level _ hnear2).trans hside2
      level_gone := by rw [hlevel, hrel.equipmentIn_eq_nil hj.ids hnear1 hnear2]
      substation_gone := hsubstation }

end Network

/-- A tap removal merges the first two lines and removes the third one. -/
theorem TapRemoval.merges_steps {c : TapRemoval} (hs : s.network.Coherent False)
    (hok : c.steps s = .ok () t) :
    ∃ vl a b merged, s.network.Merges ⟨c.line1, c.line2, some c.tap, c.merged⟩ vl a b merged
      t.network := by
  obtain ⟨a, b, tap, tee, u, v, w, x, id, ha, hb, htap, htee, hu, hremoved, hcreate, hx, hclear⟩ :=
    steps_eq_ok hok
  obtain ⟨_, u', hremove, hprune⟩ := bind_eq_ok.mp hremoved
  have hj := joined_of_teePoint hs ha hb htap htee
  obtain ⟨hX1, hX2⟩ := TeePoint.far_not_mem htee
  have hrel := Run.relined (hu ▸ hs) (hu ▸ hj.kept) hj.nodup (TeePoint.left_mem htee)
    hremove hprune rfl rfl rfl hcreate
  rw [hu] at hrel
  obtain ⟨hcleared, -⟩ := Run.removeVoltageLevelLeft_eq_ok (hx ▸ hrel.coherent) hclear
  rw [hx] at hcleared
  have hlevel : tee.voltageLevel ∈ w.network.voltageLevels :=
    (mem_voltageLevels_of_shell hrel.shell).mpr (hs.mem_of_sideIn (hs.keeps_line ha) hj.sideIn1)
  refine ⟨tee.voltageLevel, a, b, _, hj.merges hs hrel rfl rfl rfl rfl hX1 hX2 ?_ ?_ ?_⟩
  · exact hcleared ▸ w.network.sameBut_cleared _
  · rw [hcleared, mem_voltageLevels_cleared hlevel, not_not]
    exact (and_iff_left (by simp)).symm
  · intro y hy
    rw [hcleared]
    exact hrel.substation_cleared hs hy

/-- A merge of two lines clears the voltage level where they met if it is fictitious. -/
theorem LineMerge.merges_steps {c : LineMerge} (hs : s.network.Coherent False)
    (hok : c.steps s = .ok () t) :
    ∃ vl a b merged, s.network.Merges ⟨c.line1, c.line2, none, c.merged⟩ vl a b merged
      t.network := by
  obtain ⟨a, b, p, u, v, w, x, y, id, ha, hb, hmeet, hu, hremove, hprune, hcreate, hy, hclear⟩ :=
    steps_eq_ok hok
  have hj := joined_of_meetingPoint hs ha hb hmeet
  have hX1 : a.endOf p.side1.opposite ∉ ({p.voltageLevel} : Set String) :=
    Branch.endOf_opposite_ne hj.sideIn1
  have hX2 : b.endOf p.side2.opposite ∉ ({p.voltageLevel} : Set String) :=
    Branch.endOf_opposite_ne hj.sideIn2
  have hleft : ∀ z ∈ [(a.id, a.terminal p.side1), (b.id, b.terminal p.side2)],
      z.2.voltageLevel ∈ ({p.voltageLevel} : Set String) := by
    simp only [List.forall_mem_cons, List.not_mem_nil, false_implies, implies_true, and_true]
    exact ⟨Branch.endOf_of_sideIn hj.sideIn1, Branch.endOf_of_sideIn hj.sideIn2⟩
  have hrel :=
      Run.relined (hu ▸ hs) (hu ▸ hj.kept) hj.nodup hleft hremove hprune rfl rfl rfl hcreate
  rw [hu] at hrel
  have hlevel : p.voltageLevel ∈ x.network.voltageLevels :=
    (mem_voltageLevels_of_shell hrel.shell).mpr (hs.mem_of_sideIn (hs.keeps_line ha) hj.sideIn1)
  have hfictitious : y.network.voltageLevels[p.voltageLevel]?.any (·.fictitious) = true ↔
      s.network.Fictitious p.voltageLevel := by
    rw [hy, ← fictitious_iff, hrel.fictitious_iff]
  split at hclear
  next hyes =>
    obtain ⟨hcleared, -⟩ := Run.removeVoltageLevelLeft_eq_ok (hy ▸ hrel.coherent) hclear
    rw [hy] at hcleared
    refine ⟨p.voltageLevel, a, b, _, hj.merges hs hrel rfl rfl rfl rfl hX1 hX2 ?_ ?_ ?_⟩
    · exact hcleared ▸ x.network.sameBut_cleared _
    · rw [hcleared, mem_voltageLevels_cleared hlevel, not_not]
      exact (and_iff_left fun _ => hfictitious.mp hyes).symm
    · intro z hz
      rw [hcleared]
      exact hrel.substation_cleared hs hz
  next hno =>
    obtain ⟨-, rfl⟩ := pure_eq_ok.mp hclear
    rw [hy]
    refine ⟨p.voltageLevel, a, b, _, hj.merges hs hrel rfl rfl rfl rfl hX1 hX2 (.refl _ _) ?_ ?_⟩
    · exact iff_of_false (not_not.mpr hlevel) fun h => hno (hfictitious.mpr (h.2 rfl))
    · rintro z ⟨o, ho, hz⟩
      refine iff_of_false (not_not.mpr ?_) fun h => h.1 hlevel
      exact hrel.substations ▸ hs.substation_mem _ o z ho hz

namespace Modification

theorem merges_of_succeeds (h : n.Coherent False) {m : Modification} {j : Joint}
    (hj : m.joint? = some j) {naming : NamingStrategy} {strict : Bool}
    (hok : (m.apply n naming strict).Succeeds) :
    ∃ vl a b merged, n.Merges j vl a b merged (m.apply n naming strict).network := by
  cases m with
  | tapRemoval c =>
    cases hj
    obtain ⟨t, hsteps, ht⟩ := Run.ok_of_succeeds hok
    obtain ⟨vl, a, b, merged, hmerges⟩ := TapRemoval.merges_steps (s := ⟨n, []⟩) h hsteps
    exact ⟨vl, a, b, merged, ht ▸ hmerges⟩
  | lineMerge c =>
    cases hj
    obtain ⟨t, hsteps, ht⟩ := Run.ok_of_succeeds hok
    obtain ⟨vl, a, b, merged, hmerges⟩ := LineMerge.merges_steps (s := ⟨n, []⟩) h hsteps
    exact ⟨vl, a, b, merged, ht ▸ hmerges⟩
  | _ => cases hj

/-- In every network that can come about, lines that are merged leave the voltage
levels of their far ends as they are, but for the owner of their terminals there.
The voltage level where they met goes if nothing is left in it, and its substation
with it. -/
theorem lines_merged (id : String) (serial : Nat) (ops : List Operation) {m : Modification}
    {j : Joint} (hj : m.joint? = some j) {naming : NamingStrategy} {strict : Bool}
    (hok : (m.apply ((empty id serial).after ops) naming strict).Succeeds) :
    ∃ vl a b merged, ((empty id serial).after ops).Merges j vl a b merged
      (m.apply ((empty id serial).after ops) naming strict).network :=
  merges_of_succeeds ((coherent_empty False id serial).after ops False.elim) hj hok

/-- Three lines that meet in a voltage level of a substation of its own, each at
another side or node, with a switch and a connection between them. -/
def starredLines : List Operation :=
  [.change (.addSubstation { id := "S" }),
    .change (.addVoltageLevel { id := "T", substation := some "S", fictitious := true }),
    .change (.addConnection "T" 0 1),
    .change (.addSwitch { voltageLevel := "T", id := "D", node1 := 1, node2 := 2 }),
    .change (.addVoltageLevel { id := "V" }),
    .change (.addBusbarSection { voltageLevel := "V", id := "B1", node := 0 }),
    .change (.addSwitch { voltageLevel := "V", id := "D1", node1 := 0, node2 := 1 }),
    .change (.addVoltageLevel { id := "W", kind := .busBreaker }),
    .change (.addBus { voltageLevel := "W", id := "B2" }),
    .change (.addVoltageLevel { id := "X" }),
    .change (.addConnectable (.branch
      { owner := 0, id := "L1", terminal1 := some (.atNode "V" 1),
        terminal2 := some (.atNode "T" 0) })),
    .change (.addConnectable (.branch
      { owner := 0, id := "L2", terminal1 := some (.atBus "W" "B2"),
        terminal2 := some (.atNode "T" 1) })),
    .change (.addConnectable (.branch
      { owner := 0, id := "L3", terminal1 := some (.atNode "T" 2),
        terminal2 := some (.atNode "X" 0) }))]

theorem lines_merged_starredLines :
    ∃ vl a b merged, ((empty "N" 0).after starredLines).Merges ⟨"L1", "L2", some "L3", "L1"⟩ vl
      a b merged ((tapRemoval ⟨"L1", "L2", "L3", "L1", none⟩).apply
        ((empty "N" 0).after starredLines) .standard true).network :=
  lines_merged "N" 0 starredLines rfl (by decide +kernel)

end Modification

end Switchyard
