import Switchyard.LineTap
import Switchyard.Proofs.Halves

namespace Switchyard

open Std Network

/-- The second network has a voltage level besides with nothing inside. Clearing
it gives the first network back. -/
structure Network.Opens (n m : Network) (vl : String) : Prop where
  cleared : m.cleared vl = n
  absent : vl ∉ n.voltageLevels
  inside : m.inside? vl = some (.nodeBreaker {})
  free : m.equipmentIn vl = []
  busbarSections : m.busbarSections = n.busbarSections

/-- A voltage level under a new id is opened, wherever it leads back to when cleared. -/
theorem Network.Opens.withLevel {n m : Network} {v : VoltageLevel} (h : n.Coherent False)
    (hid : v.id ∉ n.index) (ht : v.topology = .nodeBreaker {})
    (hcleared : (n.withLevel v).cleared v.id = m) (hlevels : m.voltageLevels = n.voltageLevels)
    (hbusbars : n.busbarSections = m.busbarSections) : m.Opens (n.withLevel v) v.id where
  cleared := hcleared
  absent := by
    rw [hlevels]
    exact fun hm => h.stores_of_index hid _ (.voltageLevel hm)
  inside := by rw [inside?_withLevel, if_pos rfl, ht]
  free := h.equipmentIn_withLevel hid
  busbarSections := hbusbars

/-- What is asked of a terminal is asked of it where the voltage level is open, too. -/
theorem Network.Opens.seats {n m : Network} {vl : String} (h : n.Opens m vl) {x : Terminal}
    (hx : n.Seats x) : m.Seats x := by
  rintro y node w rfl hw hplaced
  by_cases hy : y = vl
  · subst hy
    cases hw.symm.trans h.inside
    exact absurd hplaced ExtTreeMap.not_mem_empty
  · refine hx y node w rfl ?_ hplaced
    rw [← h.cleared, inside?_cleared hy, hw]

theorem Network.Opens.seats_atNode {n m : Network} {vl : String} (h : n.Opens m vl) (node : Node) :
    m.Seats (.atNode vl node) := by
  rintro y x w he hw hplaced
  obtain ⟨rfl, rfl⟩ : vl = y ∧ node = x := by simpa [Terminal.atNode] using he
  cases hw.symm.trans h.inside
  exact absurd hplaced ExtTreeMap.not_mem_empty

namespace LineTap

variable {c : LineTap} {naming : NamingStrategy} {n : Network} {s t : Session}
  {C : Set Connectable}

theorem extended_createVoltageLevel (h : Extended ∅ ∅ C n s.network) {line : Branch}
    {substation : Option String} (hok : c.createVoltageLevel line substation s = .ok () t) :
    ∃ m, n.Opens m c.voltageLevel ∧ Extended ∅ ∅ C m t.network ∧
      ∀ x, x ≠ c.voltageLevel → t.network.inside? x = s.network.inside? x := by
  cases substation with
  | none =>
    simp only [createVoltageLevel, bind_eq_ok, Run.network_eq_ok, Run.edit_eq_ok,
      Run.emit_eq_ok] at hok
    obtain ⟨_, _, ⟨rfl, rfl⟩, _, _, ⟨k, hlevel, rfl⟩, rfl⟩ := hok
    obtain ⟨hs, -, hid, rfl⟩ := VoltageLevelDraft.create_eq_ok.mp hlevel
    have hbase : c.voltageLevel ∉ n.index := fun hm => hid (h.mem_index hm)
    exact ⟨_, .withLevel h.base hbase rfl (h.base.cleared_withLevel hbase rfl) rfl rfl,
      h.withLevel hid (show _ = Topology.empty .nodeBreaker from rfl) hs,
      fun _ hx => (inside?_withLevel _ _ _).trans (if_neg (Ne.symm hx))⟩
  | some id =>
    simp only [createVoltageLevel, bind_eq_ok, Run.network_eq_ok, Run.edit_eq_ok,
      Run.emit_eq_ok] at hok
    obtain ⟨_, _, ⟨j, hsubstation, rfl⟩, _, _, rfl, _, _, ⟨rfl, rfl⟩, _, _, ⟨k, hlevel, rfl⟩,
      rfl⟩ := hok
    obtain ⟨-, hnew, rfl⟩ := Substation.create_eq_ok.mp hsubstation
    obtain ⟨hs, -, hid, rfl⟩ := VoltageLevelDraft.create_eq_ok.mp hlevel
    have hgrown := h.withSubstation hnew
    have hbase : id ∉ n.index := fun hm => hnew (h.mem_index hm)
    have hbase' := fun hm => hid (hgrown.mem_index hm)
    exact ⟨_, .withLevel hgrown.base hbase' rfl
      (h.base.cleared_withSubstation hbase hbase' rfl) rfl rfl,
      hgrown.withLevel hid (show _ = Topology.empty .nodeBreaker from rfl) hs,
      fun _ hx => (inside?_withLevel _ _ _).trans (if_neg (Ne.symm hx))⟩

theorem extended_splitLine {X : Set String} {line : Branch} {S : Set Switch}
    (h : Extended X S {.branch line} n s.network)
    (hseats1 : n.Seats line.terminal1) (hseats2 : n.Seats line.terminal2)
    (hok : c.splitLine line s = .ok () t) :
    Extended X S
      {.branch (line.secondHalf c.line2 c.line2Name c.percent (.atNode c.voltageLevel 2)),
        .branch (line.firstHalf c.line1 c.line1Name c.percent (.atNode c.voltageLevel 0))}
      n t.network := by
  simp only [splitLine, bind_eq_ok, Run.network_eq_ok, pure_eq_ok] at hok
  obtain ⟨_, _, ⟨rfl, rfl⟩, _, s1, hremove, id1, s2, hfirst, id2, s3, hsecond, -, rfl⟩ := hok
  have hseats : ∀ x ∈ (Connectable.branch line).terminals, n.Seats x.2 := by
    simpa [Connectable.terminals] using ⟨hseats1, hseats2⟩
  have hremoved := Run.extended_removeLine h rfl rfl hseats hremove
  rw [Set.sdiff_self] at hremoved
  have hone := Run.extended_createNamedLine hremoved rfl rfl rfl hfirst
  have htwo := Run.extended_createNamedLine hone rfl rfl rfl hsecond
  rw [insert_empty_eq] at htwo
  exact htwo

theorem extended_addConnection {X : Set String} {S : Set Switch}
    (h : Extended X S C n s.network) {vl : String} (hvl : vl ∈ X) {a b : Node}
    (hok : Run.edit (Edit.addConnection vl a b) s = .ok () t) :
    Extended X S C n t.network := by
  obtain ⟨k, hk, rfl⟩ := Run.edit_eq_ok.mp hok
  have hcoherent : k.Coherent False :=
    (Change.addConnection vl a b).coherent_of_ok (Edit.after_return _ _) h.coherent hk
  obtain ⟨_, -, rfl⟩ := Edit.addConnection_eq_ok hk
  exact h.sameOff hcoherent (.setTopology hvl _)

/-- Joins the ends of the halves and of the new line in the new voltage level. -/
def joinEnds (c : LineTap) : Run Unit := do
  Run.edit (Edit.addConnection c.voltageLevel 0 1)
  Run.edit (Edit.addConnection c.voltageLevel 1 2)
  Run.edit (Edit.addConnection c.voltageLevel 1 3)

theorem extended_joinEnds {X : Set String} {S : Set Switch} (h : Extended X S C n s.network)
    (hin : c.voltageLevel ∈ X) (hok : c.joinEnds s = .ok () t) : Extended X S C n t.network := by
  simp only [joinEnds, bind_eq_ok] at hok
  obtain ⟨_, _, hadd1, _, _, hadd2, hadd3⟩ := hok
  have h1 := extended_addConnection h hin hadd1
  have h2 := extended_addConnection h1 hin hadd2
  exact extended_addConnection h2 hin hadd3

theorem extended_createTarget {X : Set String} (h : Extended X ∅ C n s.network) {vl : String}
    {rail : Rail} (hr : n.HasRail vl rail) (hvl : vl ∉ X) (hroom : s.network.Room vl 2)
    {base : String} {far : Terminal}
    (hok : createTarget naming base (.busbarSection rail.id vl rail.node) s = .ok far t) :
    ∃ bay, bay.voltageLevel = vl ∧ n.Serves [bay] [far] ∧
      Extended X (laid [bay]) C n t.network := by
  simp only [createTarget, bind_eq_ok, Run.nextNode_eq_ok, pure_eq_ok] at hok
  obtain ⟨first, _, ⟨w, hw, rfl, rfl⟩, _, u, hbay, rfl, rfl⟩ := hok
  have hfits : (n.bayPlan vl rail ⟨w.nextNode, w.nextNode + 1⟩).Fits n :=
    h.base.fits_bayPlan hr (by simp) (h.unplaced hvl (hroom.unplaced_nextNode hw))
      (h.unplaced hvl (hroom.unplaced (i := 1) (by decide) hw))
  have hnone : Extended X (laid []) C n s.network := by rwa [laid_nil]
  obtain ⟨bay, hb, hu⟩ := Run.extended_createLineBay hnone hbay
  have hserves := (Serves.nil n).concat_node (hb ▸ hfits) (by simp)
  rw [hb] at hserves
  exact ⟨bay, congrArg BayPlan.voltageLevel hb, hserves, hu⟩

/-- A tap opens the new voltage level, splits the line there, joins the ends, and
makes the new line to what the target has for it. -/
theorem steps_eq_ok (hok : c.steps naming s = .ok () t) :
    ∃ line j substation u v w far x id y, s.network.line? c.line = some line ∧
      s.network.junction c.target = .ok j ∧
      c.createVoltageLevel line substation s = .ok () u ∧ c.splitLine line u = .ok () v ∧
      c.joinEnds v = .ok () w ∧ createTarget naming line.id j w = .ok far x ∧
      Run.createLine
        { c.tap with terminal1 := some (.atNode c.voltageLevel 3), terminal2 := some far } x =
        .ok id y ∧ t.network = y.network := by
  simp only [steps, bind_eq_ok, Run.line_eq_ok, Run.junction_eq_ok] at hok
  obtain ⟨line, _, ⟨hline, rfl⟩, _, s1, hpercent, j, _, ⟨hj, rfl⟩, hok⟩ := hok
  cases Run.checkPercent_eq_ok hpercent
  cases hsubstation : c.newSubstation with
  | error f => simp only [hsubstation, Run.refuse_eq_ok] at hok
  | ok substation =>
    simp only [hsubstation, bind_eq_ok, Run.network_eq_ok] at hok
    obtain ⟨_, _, ⟨rfl, rfl⟩, hok⟩ := hok
    split at hok
    · simp only [bind_eq_ok, Run.refuse_eq_ok, false_and, exists_false] at hok
    simp only [bind_eq_ok, Run.emit_eq_ok] at hok
    obtain ⟨_, s2, hids, _, s3, hlevel, _, s4, hsplit, _, s5, hadd1, _, s6, hadd2, _, s7, hadd3,
      far, s8, htarget, id, s9, htap, rfl⟩ := hok
    cases Run.checkNewIds_eq_ok hids
    have hjoin : c.joinEnds s4 = .ok () s7 := by
      simp only [joinEnds, bind_eq_ok]
      exact ⟨(), s5, hadd1, (), s6, hadd2, hadd3⟩
    exact ⟨line, j, substation, s3, s4, s7, far, s8, id, s9, hline, hj, hlevel, hsplit, hjoin,
      htarget, htap, s9.network_tell _⟩

/-- The line is in halves that end in the new voltage level. Elsewhere there is room as before. -/
theorem extended_halves {line : Branch} {substation : Option String} {u v w : Session}
    (h : Extended ∅ ∅ {.branch line} n s.network) (hseats1 : n.Seats line.terminal1)
    (hseats2 : n.Seats line.terminal2) (hlevel : c.createVoltageLevel line substation s = .ok () u)
    (hsplit : c.splitLine line u = .ok () v) (hjoin : c.joinEnds v = .ok () w) :
    ∃ m, n.Opens m c.voltageLevel ∧ Extended {c.voltageLevel} ∅
        {.branch (line.secondHalf c.line2 c.line2Name c.percent (.atNode c.voltageLevel 2)),
          .branch (line.firstHalf c.line1 c.line1Name c.percent (.atNode c.voltageLevel 0))}
        m w.network ∧
      ∀ vl count, vl ≠ c.voltageLevel → s.network.Room vl count → w.network.Room vl count := by
  obtain ⟨m, hopens, hopened, hinside⟩ := extended_createVoltageLevel h hlevel
  have hopened := hopened.mono (Set.empty_subset {c.voltageLevel})
  have hsplitted := extended_splitLine hopened (hopens.seats hseats1) (hopens.seats hseats2) hsplit
  have hjoined := extended_joinEnds hsplitted rfl hjoin
  refine ⟨m, hopens, hjoined, fun vl count hvl hroom => ?_⟩
  refine hopened.room_of_terminals hjoined hvl ?_ fun w hw => hroom w (hinside _ hvl ▸ hw)
  -- The halves end where the line did and in the new voltage level.
  have hne : ∀ node x, (.atNode vl x : Terminal) ≠ .atNode c.voltageLevel node :=
    fun node x he => hvl (congrArg Terminal.voltageLevel he)
  rintro _ (rfl | rfl) side x hat
  all_goals
    refine ⟨_, rfl, side, ?_⟩
    simp only [Connectable.terminals, Branch.secondHalf, Branch.firstHalf, List.mem_cons,
      Prod.mk.injEq, hne, and_false, false_or, or_false, List.not_mem_nil] at hat ⊢
    simp [hat]

/-- Tapping a line leaves its halves in place of it, the new line, and its bay, if there is room
for that. -/
theorem extended_steps {line : Branch} (h : Extended ∅ ∅ {.branch line} n s.network)
    (hseats1 : n.Seats line.terminal1) (hseats2 : n.Seats line.terminal2)
    (hline : s.network.line? c.line = some line) {b : BusbarSection}
    (hb : s.network.busbarSections[c.target]? = some b) (hroom : s.network.Room b.voltageLevel 2)
    (hok : c.steps naming s = .ok () t) :
    ∃ m bay tap, n.Opens m c.voltageLevel ∧ tap.terminal1 = .atNode c.voltageLevel 3 ∧
      m.Serves [bay] [tap.terminal2] ∧ bay.voltageLevel ≠ c.voltageLevel ∧
      Extended {c.voltageLevel} (laid [bay])
        {.branch tap,
          .branch (line.secondHalf c.line2 c.line2Name c.percent (.atNode c.voltageLevel 2)),
          .branch (line.firstHalf c.line1 c.line1Name c.percent (.atNode c.voltageLevel 0))}
        m t.network := by
  obtain ⟨line', j, substation, u, v, w, far, x, id, y, hline', hj, hlevel, hsplit, hjoin,
    htarget, htap, ht⟩ := steps_eq_ok hok
  cases hline.symm.trans hline'
  cases (h.coherent.junction_of_busbarSection hb).symm.trans hj
  obtain ⟨m, hopens, hjoined, hleft⟩ := extended_halves h hseats1 hseats2 hlevel hsplit hjoin
  have hr : n.HasRail b.voltageLevel ⟨c.target, b.node⟩ :=
    h.hasRail_iff.mp ⟨b, hb, rfl, rfl⟩
  have hvl : b.voltageLevel ∉ ({c.voltageLevel} : Set String) := by
    intro he
    obtain ⟨w, hw⟩ := hr.wiring h.base
    refine hopens.absent ?_
    rw [← inside?_isSome_iff, ← Set.mem_singleton_iff.mp he, hw, Option.isSome_some]
  have hr : m.HasRail b.voltageLevel ⟨c.target, b.node⟩ := by
    rwa [HasRail, hopens.busbarSections]
  obtain ⟨bay, hbay, hserves, hlaid⟩ :=
    extended_createTarget hjoined hr hvl (hleft _ 2 hvl hroom) htarget
  have htapped := Run.extended_createLine hlaid rfl rfl htap
  exact ⟨m, bay, _, hopens, rfl, hserves, hbay ▸ hvl, ht ▸ htapped⟩

end LineTap

/-- A line from a busbar section to a line, by way of a new substation. -/
def sectionTap : LineTap where
  line := "L"
  target := "B3"
  tap := { owner := 0, id := "T" }
  percent := 25
  voltageLevel := "F"
  voltageLevelName := none
  createSubstation := true
  substation := some "S"
  substationName := none
  line1 := "L1"
  line1Name := none
  line2 := "L2"
  line2Name := none

end Switchyard
