import Switchyard.Modification
import Switchyard.Proofs.LineCuts
import Switchyard.Proofs.Success
import Switchyard.Proofs.Supply

namespace Switchyard

open Std Network

namespace Wiring

/-- Both wirings have the same switches and internal connections at the node. -/
structure SameAt (w w' : Wiring) (node : Node) : Prop where
  edges : w'.edgesAt node = w.edgesAt node
  switches : ∀ e ∈ w.edgesAt node, w'.switchOf e = w.switchOf e

variable {w w' u : Wiring} {S : Set Switch} {T : Set (Node × Attachment)} {node : Node}

namespace SameAt

theorem symm (h : w.SameAt w' node) : w'.SameAt w node :=
  ⟨h.edges.symm, fun e he => (h.switches e (h.edges ▸ he)).symm⟩

theorem trans (h : w.SameAt w' node) (h' : w'.SameAt u node) : w.SameAt u node :=
  ⟨h'.edges.trans h.edges, fun e he =>
    (h'.switches e (h.edges.symm ▸ he)).trans (h.switches e he)⟩

end SameAt

theorem Carries.sameAt (h : w.Carries S T w') (hw : w.Sound) (hw' : w'.Sound)
    (hoff : ∀ s ∈ S, ¬s.Meets node) : w.SameAt w' node where
  edges := by
    refine filter_values_congr fun k e htouches => ⟨fun he => ?_, h.edge_kept hw⟩
    refine (h.edge_iff k e fun s hs hl => hoff s hs ?_).mp he
    rw [h.edge_of_link hw' hs he hl] at htouches
    exact htouches
  switches := fun e he => by
    obtain ⟨k, hk⟩ := mem_values_iff.mp (List.mem_of_mem_filter he)
    unfold switchOf
    cases hl : e.link with
    | connection => rfl
    | switch id =>
      obtain ⟨t, ht, -⟩ := hw.switch_of_edge hk hl
      refine h.switch_old id fun s hs hid => (h.switch_new s hs).2 ?_
      exact mem_iff_exists_getElem?.mpr ⟨t, hid ▸ ht⟩

theorem Carries.not_sameAt (h : w.Carries S T w') (hw : w.Sound) (hw' : w'.Sound) {s : Switch}
    (hs : s ∈ S) (hmeets : s.Meets node) : ¬w.SameAt w' node := fun hsame => by
  obtain ⟨hstored, hnew⟩ := h.switch_new s hs
  obtain ⟨k, -, hk⟩ := hw'.edge_of_switch hstored
  have hin : s.edge ∈ w'.edgesAt node :=
    List.mem_filter.mpr ⟨mem_values_iff.mpr ⟨k, hk⟩, hmeets⟩
  rw [hsame.edges] at hin
  obtain ⟨i, hi⟩ := mem_values_iff.mp (List.mem_of_mem_filter hin)
  obtain ⟨t, ht, -⟩ := hw.switch_of_edge hi rfl
  exact hnew (mem_iff_exists_getElem?.mpr ⟨t, ht⟩)

end Wiring

theorem LaidBay.first_meets_fork (b : LaidBay) : b.first.Meets b.nodes.fork :=
  Switch.meets_iff.mpr (Or.inr b.first_ends.2.2)

namespace Network.CutEnds

variable {m : Network} {j : Junction} {bays : List LaidBay} {ends : Halves Terminal} {node : Node}

/-- The switches at a junction are at the new ends, at the forks next to them and at busbar
sections. -/
theorem meets_cases (h : m.CutEnds j bays ends) (hm : m.Coherent False) {x : Switch}
    (hx : x ∈ laid bays)
    (hmeets : x.Meets node) :
    ∃ id rail w, j = .busbarSection id x.voltageLevel rail ∧
      m.inside? x.voltageLevel = some (.nodeBreaker w) ∧
      (.atNode x.voltageLevel node ∈ [ends.first, ends.second] ∨
        (node = w.nextNode + 1 ∨ node = w.nextNode + 2) ∨
          ∃ r, m.HasRail x.voltageLevel r ∧ r.node = node) := by
  cases h with
  | bus => simp at hx
  | @busbarSection id vl rail _ w hw hr hplans =>
    obtain ⟨b, hb, hx⟩ := hx
    have hplan : b.toBayPlan ∈ m.twoBays vl ⟨id, rail⟩ w.nextNode :=
      hplans ▸ List.mem_map_of_mem hb
    have hplan : ∃ nodes, b.toBayPlan = m.bayPlan vl ⟨id, rail⟩ nodes ∧
        (nodes = ⟨w.nextNode, w.nextNode + 1⟩ ∨ nodes = ⟨w.nextNode + 3, w.nextNode + 2⟩) := by
      simp only [twoBays, List.mem_cons, List.not_mem_nil, or_false] at hplan
      rcases hplan with hplan | hplan
      · exact ⟨_, hplan, Or.inl rfl⟩
      · exact ⟨_, hplan, Or.inr rfl⟩
    obtain ⟨nodes, hplan, hnodes⟩ := hplan
    have hvl : x.voltageLevel = vl := (b.voltageLevel_of_mem hx).trans (by rw [hplan]; rfl)
    have hcases := b.meets_cases hx hmeets
    rw [hplan] at hcases
    rw [hvl]
    refine ⟨id, rail, w, rfl, hw, ?_⟩
    rcases hcases with rfl | rfl | ⟨r, hin, rfl⟩
    · left
      rcases hnodes with rfl | rfl <;> simp [bayPlan]
    · right; left
      rcases hnodes with rfl | rfl <;> simp [bayPlan]
    · exact Or.inr (Or.inr ⟨r, hm.mem_bayRails hr hin, rfl⟩)

theorem meets_fork {id vl : String} {rail : Node}
    (h : m.CutEnds (.busbarSection id vl rail) bays ends)
    {w : Wiring} (hw : m.inside? vl = some (.nodeBreaker w))
    (hnode : node = w.nextNode + 1 ∨ node = w.nextNode + 2) :
    ∃ x ∈ laid bays, x.voltageLevel = vl ∧ x.Meets node := by
  cases h with
  | busbarSection hw' _ hplans =>
    cases hw.symm.trans hw'
    have hbay : ∃ b ∈ bays, b.voltageLevel = vl ∧ b.nodes.fork = node := by
      have hplan : ∃ p ∈ bays.map (·.toBayPlan), p.voltageLevel = vl ∧ p.nodes.fork = node := by
        rw [hplans]
        rcases hnode with rfl | rfl
        · exact ⟨_, List.mem_cons_self, rfl, rfl⟩
        · exact ⟨_, List.mem_cons_of_mem _ List.mem_cons_self, rfl, rfl⟩
      obtain ⟨_, hp, hplan⟩ := hplan
      obtain ⟨b, hb, rfl⟩ := List.mem_map.mp hp
      exact ⟨b, hb, hplan⟩
    obtain ⟨b, hb, rfl, rfl⟩ := hbay
    exact ⟨b.first, ⟨b, hb, List.mem_cons_self⟩, b.first_ends.1, b.first_meets_fork⟩

end Network.CutEnds

namespace LineCut

variable {c : LineCut} {naming : NamingStrategy} {n m k : Network} {s t : Session} {vl : String}
  {node : Node} {line : Branch}

/-- The node is one of the two that become the forks of the new bays when the line is gone. -/
def Retakes (c : LineCut) (n : Network) (vl : String) (node : Node) : Prop :=
  ∃ id rail m w, n.junction c.target = .ok (.busbarSection id vl rail) ∧
    Edit.removeConnectable c.line n = .ok () m ∧ m.inside? vl = some (.nodeBreaker w) ∧
    (node = w.nextNode + 1 ∨ node = w.nextNode + 2)

theorem line_of_steps (hok : c.steps naming s = .ok () t) :
    ∃ line, s.network.line? c.line = some line := by
  simp only [steps, bind_eq_ok, Run.line_eq_ok] at hok
  obtain ⟨line, _, ⟨hline, -⟩, -⟩ := hok
  exact ⟨line, hline⟩

theorem halves_apart (hok : c.steps naming s = .ok () t) : c.line1 ≠ c.line2 := by
  simp only [steps, bind_eq_ok, Run.line_eq_ok, Run.junction_eq_ok] at hok
  obtain ⟨_, _, -, _, _, -, _, _, -, _, _, hids, -⟩ := hok
  simpa using (Run.checkNewIds_spec hids).2.1

theorem end_notMem {S : Set Switch} {ends : Halves Terminal}
    (h : Extended ∅ S {.branch (line.secondHalf c.line2 c.line2Name c.percent ends.second),
      .branch (line.firstHalf c.line1 c.line1Name c.percent ends.first)} m k)
    (hapart : c.line1 ≠ c.line2) {side : Side}
    (hend : (side, .atNode vl node) ∈ (Connectable.branch line).terminals) :
    .atNode vl node ∉ [ends.first, ends.second] := by
  have hone := h.keeps_new (c := .branch (line.firstHalf c.line1 c.line1Name c.percent ends.first))
    (by simp)
  have htwo := h.keeps_new
    (c := .branch (line.secondHalf c.line2 c.line2Name c.percent ends.second)) (by simp)
  have hold : k.HoldsAt vl node ⟨c.line1, .one⟩ ∨ k.HoldsAt vl node ⟨c.line2, .two⟩ := by
    simp only [Connectable.terminals, List.mem_cons, Prod.mk.injEq, List.not_mem_nil,
      or_false] at hend
    rcases hend with ⟨-, hend⟩ | ⟨-, hend⟩
    · exact Or.inl ((h.coherent.holdsAt_iff _ _ _).mpr ⟨_, hone, by
        simp [Connectable.terminals, Branch.firstHalf, hend]⟩)
    · exact Or.inr ((h.coherent.holdsAt_iff _ _ _).mpr ⟨_, htwo, by
        simp [Connectable.terminals, Branch.secondHalf, hend]⟩)
  intro hin
  have hnew : k.HoldsAt vl node ⟨c.line1, .two⟩ ∨ k.HoldsAt vl node ⟨c.line2, .one⟩ := by
    simp only [List.mem_cons, List.not_mem_nil, or_false] at hin
    rcases hin with hin | hin
    · exact Or.inl ((h.coherent.holdsAt_iff _ _ _).mpr ⟨_, hone, by
        simp [Connectable.terminals, Branch.firstHalf, hin]⟩)
    · exact Or.inr ((h.coherent.holdsAt_iff _ _ _).mpr ⟨_, htwo, by
        simp [Connectable.terminals, Branch.secondHalf, hin]⟩)
  rcases hold with hold | hold <;> rcases hnew with hnew | hnew
  all_goals
    have heq := holdsAt_unique hold hnew
    simp only [Attachment.mk.injEq, hapart, Ne.symm hapart, reduceCtorEq, and_false,
      false_and] at heq

theorem end_notMem_of_keeps {S : Set Switch} {ends : Halves Terminal}
    (h : Extended ∅ S {.branch (line.secondHalf c.line2 c.line2Name c.percent ends.second),
      .branch (line.firstHalf c.line1 c.line1Name c.percent ends.first)} m k) {x : String}
    {d : Connectable} (hd : m.Keeps x d) {side : Side}
    (hside : (side, .atNode vl node) ∈ d.terminals) :
    .atNode vl node ∉ [ends.first, ends.second] := by
  intro hin
  simp only [List.mem_cons, List.not_mem_nil, or_false] at hin
  rcases hin with hin | hin
  · refine h.notMem_terminals hd hside
      (c := .branch (line.firstHalf c.line1 c.line1Name c.percent ends.first)) (by simp) .two ?_
    simp [Connectable.terminals, Branch.firstHalf, hin]
  · refine h.notMem_terminals hd hside
      (c := .branch (line.secondHalf c.line2 c.line2Name c.percent ends.second)) (by simp) .one ?_
    simp [Connectable.terminals, Branch.secondHalf, hin]

/-- A cut changes the switches and internal connections at a node of other equipment exactly
if it takes the node again. -/
theorem sameAt_iff (hs : s.network.Coherent False) (hline : s.network.line? c.line = some line)
    (hok : c.steps naming s = .ok () t) {x : String} {d : Connectable} (hd : s.network.Keeps x d)
    (hdb : d.isBusbarSection = false) {side : Side}
    (hside : (side, .atNode vl node) ∈ d.terminals) :
    ∃ w w', s.network.inside? vl = some (.nodeBreaker w) ∧
      t.network.inside? vl = some (.nodeBreaker w') ∧
      (w.SameAt w' node ↔ ¬c.Retakes s.network vl node) := by
  obtain ⟨m, hremove, hm, hseats1, hseats2⟩ := hs.removed_line hline
  obtain ⟨j, bays, ends, hj, hends, ht⟩ := extended_steps hm hseats1 hseats2 hline hok
  obtain ⟨w, hw, -⟩ := (hs.holdsAt_iff vl node ⟨x, side⟩).mpr ⟨d, hd, hside⟩
  obtain ⟨u, hu, hsu, hsw, hback⟩ := hm.toWired.wiring_old (Set.notMem_empty vl) hw
  obtain ⟨w', hw', -, hsw', hcarries⟩ := ht.toWired.of_wiring (Set.notMem_empty vl) hu
  refine ⟨w, w', hw, hw', ?_⟩
  -- The line itself has no switches, so the wiring without it can stand for the first one.
  have hline' : u.SameAt w node := hback.sameAt hsu hsw (by simp [switchesAt])
  have hsame : w.SameAt w' node ↔ u.SameAt w' node := ⟨hline'.trans, hline'.symm.trans⟩
  rw [hsame]
  by_cases hmeets : ∃ y ∈ laid bays, y.voltageLevel = vl ∧ y.Meets node
  · obtain ⟨y, hy, rfl, hmeets⟩ := hmeets
    obtain ⟨id, rail, v, rfl, hv, hend | hfork | ⟨r, hr, rfl⟩⟩ :=
      hends.meets_cases hm.base hy hmeets
    · refine absurd hend ?_
      rcases (hm.keeps_iff x d).mp hd with hkept | ⟨-, rfl⟩
      · exact end_notMem_of_keeps ht hkept hside
      · exact end_notMem ht (halves_apart hok) hside
    · cases hu.symm.trans hv
      exact iff_of_false (hcarries.not_sameAt hsu hsw' ⟨hy, rfl⟩ hmeets)
        (not_not.mpr ⟨id, rail, m, u, hj, hremove, hu, hfork⟩)
    · have hrail := hs.occupant_rail (hm.hasRail_iff.mpr hr) hw
      rw [hs.occupant_equipment hw hd hdb hside] at hrail
      cases hrail
  · have hoff : u.SameAt w' node := hcarries.sameAt hsu hsw' fun y hy hat =>
      hmeets ⟨y, hy.1, hy.2, hat⟩
    refine iff_of_true hoff ?_
    rintro ⟨id, rail, m', v, hj', hremove', hv, hnode⟩
    cases hj.symm.trans hj'
    cases hremove.symm.trans hremove'
    exact hmeets (hends.meets_fork hv hnode)

/-- The halves are there, each with the end of the line that it keeps. -/
theorem halves_of_steps (hs : s.network.Coherent False)
    (hline : s.network.line? c.line = some line) (hok : c.steps naming s = .ok () t) :
    ∃ one two, t.network.line? c.line1 = some one ∧ one.terminal1 = line.terminal1 ∧
      t.network.line? c.line2 = some two ∧ two.terminal2 = line.terminal2 := by
  obtain ⟨m, hm, hseats1, hseats2⟩ := hs.without_line hline
  obtain ⟨_, _, ends, -, -, ht⟩ := extended_steps hm hseats1 hseats2 hline hok
  have hone := ht.line?_new (b := line.firstHalf c.line1 c.line1Name c.percent ends.first)
    (by simp) rfl
  have htwo := ht.line?_new (b := line.secondHalf c.line2 c.line2Name c.percent ends.second)
    (by simp) rfl
  exact ⟨_, _, hone, rfl, htwo, rfl⟩

end LineCut

namespace Modification

/-- In every network that can come about, the halves of a line that is cut keep its ends. A
node of other equipment keeps its switches and internal connections exactly if a new bay does
not take it again. -/
theorem halves_keep_ends (id : String) (serial : Nat) (ops : List Operation) {c : LineCut}
    {naming : NamingStrategy} {strict : Bool}
    (h : ((lineCut c).apply ((empty id serial).after ops) naming strict).Succeeds) :
    ∃ line one two, ((empty id serial).after ops).line? c.line = some line ∧
      ((lineCut c).apply ((empty id serial).after ops) naming strict).network.line? c.line1 =
        some one ∧ one.terminal1 = line.terminal1 ∧
      ((lineCut c).apply ((empty id serial).after ops) naming strict).network.line? c.line2 =
        some two ∧ two.terminal2 = line.terminal2 ∧
      ∀ {x : String} {d : Connectable} {side : Side} {vl : String} {node : Node},
        ((empty id serial).after ops).connectable? x = some d → d.isBusbarSection = false →
        (side, .atNode vl node) ∈ d.terminals →
        ∃ w w', ((empty id serial).after ops).inside? vl = some (.nodeBreaker w) ∧
          ((lineCut c).apply ((empty id serial).after ops) naming strict).network.inside? vl =
            some (.nodeBreaker w') ∧
          (w.SameAt w' node ↔ ¬c.Retakes ((empty id serial).after ops) vl node) := by
  have hn := (coherent_empty False id serial).after ops False.elim
  obtain ⟨t, ht, hend⟩ := Run.ok_of_succeeds h
  have hend : ((lineCut c).apply ((empty id serial).after ops) naming strict).network =
      t.network := hend
  have hs : (⟨(empty id serial).after ops, []⟩ : Session).network.Coherent False := hn
  obtain ⟨line, hline⟩ := LineCut.line_of_steps ht
  obtain ⟨one, two, hone, hkept1, htwo, hkept2⟩ := LineCut.halves_of_steps hs hline ht
  refine ⟨line, one, two, hline, hend ▸ hone, hkept1, hend ▸ htwo, hkept2, ?_⟩
  intro x d side vl node hd hdb hside
  rw [hend]
  exact LineCut.sameAt_iff hs hline ht (keeps_of_connectable? hd) hdb hside

/-- A line from a lone node of a voltage level to a bus elsewhere. The node before the one of
the line is free. -/
def looseLine : List Operation :=
  [.change (.addVoltageLevel { id := "V" }),
    .change (.addBusbarSection { voltageLevel := "V", id := "B", node := 0 }),
    .change (.addVoltageLevel { id := "W", kind := .busBreaker }),
    .change (.addBus { voltageLevel := "W", id := "BW" }),
    .change (.addConnectable (.branch
      { owner := 0, id := "L", terminal1 := some (.atNode "V" 2),
        terminal2 := some (.atBus "W" "BW") }))]

/-- The line is to be cut at the busbar section of its own voltage level. -/
def cutAtHome : LineCut where
  line := "L"
  target := "B"
  percent := 50
  line1 := "L_1"
  line1Name := none
  line2 := "L_2"
  line2Name := none

theorem line_looseLine :
    ∃ d, ((empty "N" 0).after looseLine).connectable? "L" = some d ∧
      d.isBusbarSection = false ∧ (.one, .atNode "V" 2) ∈ d.terminals := by
  have hline : (((empty "N" 0).after looseLine).connectable? "L").map
      (fun d => (d.isBusbarSection, d.terminals)) =
        some (false, [(.one, .atNode "V" 2), (.two, .atBus "W" "BW")]) := by
    decide +kernel
  obtain ⟨d, hd, hat⟩ := Option.map_eq_some_iff.mp hline
  obtain ⟨hdb, hterminals⟩ := Prod.mk.inj hat
  exact ⟨d, hd, hdb, hterminals ▸ List.mem_cons_self⟩

theorem halves_keep_ends_looseLine :
    ((lineCut cutAtHome).apply ((empty "N" 0).after looseLine) .standard true).Succeeds ∧
      ∃ d, ((empty "N" 0).after looseLine).connectable? "L" = some d ∧
        d.isBusbarSection = false ∧ (.one, .atNode "V" 2) ∈ d.terminals ∧
        ∃ w w', ((empty "N" 0).after looseLine).inside? "V" = some (.nodeBreaker w) ∧
          ((lineCut cutAtHome).apply ((empty "N" 0).after looseLine) .standard
            true).network.inside? "V" = some (.nodeBreaker w') ∧
          (w.SameAt w' 2 ↔ ¬cutAtHome.Retakes ((empty "N" 0).after looseLine) "V" 2) := by
  have h : ((lineCut cutAtHome).apply ((empty "N" 0).after looseLine) .standard
      true).Succeeds := by
    decide +kernel
  obtain ⟨d, hd, hdb, hside⟩ := line_looseLine
  obtain ⟨_, _, _, -, -, -, -, -, hnodes⟩ := halves_keep_ends "N" 0 looseLine h
  exact ⟨h, d, hd, hdb, hside, hnodes hd hdb hside⟩

/-- The fork of the first bay is the node of the line. -/
theorem not_sameAt_looseLine :
    ((lineCut cutAtHome).apply ((empty "N" 0).after looseLine) .standard true).Succeeds ∧
      ∃ d, ((empty "N" 0).after looseLine).connectable? "L" = some d ∧
        d.isBusbarSection = false ∧ (.one, .atNode "V" 2) ∈ d.terminals ∧
        ∀ w w', ((empty "N" 0).after looseLine).inside? "V" = some (.nodeBreaker w) →
          ((lineCut cutAtHome).apply ((empty "N" 0).after looseLine) .standard
            true).network.inside? "V" = some (.nodeBreaker w') → ¬w.SameAt w' 2 := by
  have hbefore : (((empty "N" 0).after looseLine).wiring "V").toOption.map (·.edgesAt 2) =
      some [] := by
    decide +kernel
  have hafter : (((lineCut cutAtHome).apply ((empty "N" 0).after looseLine) .standard
      true).network.wiring "V").toOption.map (·.edgesAt 2) =
      some [⟨1, 2, .switch "L_1_BREAKER"⟩, ⟨2, 0, .switch "L_1_DISCONNECTOR_2_0"⟩] := by
    decide +kernel
  obtain ⟨d, hd, hdb, hside⟩ := line_looseLine
  refine ⟨by decide +kernel, d, hd, hdb, hside, fun w w' hw hw' hsame => ?_⟩
  rw [wiring_eq_ok_iff.mpr hw] at hbefore
  rw [wiring_eq_ok_iff.mpr hw'] at hafter
  have hnone : w.edgesAt 2 = [] := Option.some.inj hbefore
  have htwo : w'.edgesAt 2 = _ := Option.some.inj hafter
  rw [hsame.edges, hnone] at htwo
  cases htwo

end Modification

end Switchyard
