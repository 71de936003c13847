import Switchyard.Proofs.Serving

namespace Switchyard

open Std Network

/-- The first half of a line, up to a new end. -/
def Branch.firstHalf (b : Branch) (id : String) (name : Option String) (percent : Float)
    (far : Terminal) : Branch :=
  { id, name, kind := .line, terminal1 := b.terminal1, terminal2 := far
    parameters := b.parameters.scaled percent, limits1 := b.limits1, limits2 := {}
    position := none }

/-- The second half of a line, from a new end on. -/
def Branch.secondHalf (b : Branch) (id : String) (name : Option String) (percent : Float)
    (near : Terminal) : Branch :=
  { id, name, kind := .line, terminal1 := near, terminal2 := b.terminal2
    parameters := b.parameters.scaled (100 - percent), limits1 := {}, limits2 := b.limits2
    position := none }

/-- The line made of its halves again. It is no longer placed, and its parameters
went through two multiplications and a sum. -/
def Branch.rejoined (b : Branch) (name : Option String) (percent : Float) : Branch :=
  { b with
    name
    parameters := (b.parameters.scaled percent).merged (b.parameters.scaled (100 - percent))
    position := none }

theorem LimitSet.merge_empty (s : LimitSet) : s.merge {} = s := by
  obtain ⟨activePower, apparentPower, current⟩ := s
  cases activePower <;> cases apparentPower <;> cases current <;> rfl

/-- Merged where they were cut, the halves of a line make the line again. -/
theorem branch_mergedLine {b : Branch} {id : String} (hb : b.kind = .line) (hid : b.id = id)
    (owner : Nat) {id1 id2 : String} {name name1 name2 : Option String} {percent : Float}
    {far near : Terminal} :
    (mergedLine owner id name (b.firstHalf id1 name1 percent far)
      (b.secondHalf id2 name2 percent near) .two .one).branch b.terminal1 b.terminal2 id =
      b.rejoined name percent := by
  subst hid
  simp only [mergedLine, BranchDraft.branch, Branch.firstHalf, Branch.secondHalf, Branch.rejoined,
    Branch.limits, Side.opposite, LimitSet.merge_empty, hb]

/-- A line can be removed, and is what the network has besides what is left. Its ends are at nodes
that are gone then or that something else refers to. -/
theorem Network.Coherent.removed_line {n : Network} (h : n.Coherent False) {id : String}
    {b : Branch} (hb : n.line? id = some b) :
    ∃ m, Edit.removeConnectable id n = .ok () m ∧ Extended ∅ ∅ {.branch b} m n ∧
      m.Seats b.terminal1 ∧ m.Seats b.terminal2 := by
  have hk := (line?_eq_some_iff.mp hb).1
  obtain ⟨c, m, -, hok, -⟩ | ⟨hno, -⟩ := Edit.removeConnectable_cases h id
  · have hseats : ∀ x ∈ (Connectable.branch b).terminals, m.Seats x.2 := fun x hx =>
      h.seats_removeConnectable hk hok fun hout => absurd rfl (hout x hx)
    exact ⟨m, hok, .of_removeConnectable h hk rfl hok, hseats _ List.mem_cons_self,
      hseats _ (List.mem_cons_of_mem _ List.mem_cons_self)⟩
  · exact absurd hk (hno _)

theorem Network.Coherent.without_line {n : Network} (h : n.Coherent False) {id : String}
    {b : Branch} (hb : n.line? id = some b) :
    ∃ m, Extended ∅ ∅ {.branch b} m n ∧ m.Seats b.terminal1 ∧ m.Seats b.terminal2 :=
  (h.removed_line hb).imp fun _ hm => hm.2

/-- A line from a feeder bay in one voltage level to a bus in another one, and a
busbar section in a third one. -/
def spannedLine : List Operation :=
  [.change (.addVoltageLevel { id := "V" }),
    .change (.addBusbarSection { voltageLevel := "V", id := "B1", node := 0 }),
    .change (.addSwitch { voltageLevel := "V", id := "D1", node1 := 0, node2 := 1 }),
    .change (.addVoltageLevel { id := "W", kind := .busBreaker }),
    .change (.addBus { voltageLevel := "W", id := "B2" }),
    .change (.addVoltageLevel { id := "X" }),
    .change (.addBusbarSection { voltageLevel := "X", id := "B3", node := 0 }),
    .change (.addConnectable (.branch
      { owner := 0, id := "L", terminal1 := some (.atNode "V" 1),
        terminal2 := some (.atBus "W" "B2") }))]

/-- A line between two buses, and a third voltage level with a busbar section at a high number,
another one at the first, and equipment at the last number but one. -/
def crowdedTap : List Operation :=
  [.change (.addVoltageLevel { id := "U", kind := .busBreaker }),
    .change (.addBus { voltageLevel := "U", id := "BU" }),
    .change (.addVoltageLevel { id := "W", kind := .busBreaker }),
    .change (.addBus { voltageLevel := "W", id := "BW" }),
    .change (.addVoltageLevel { id := "X" }),
    .change (.addBusbarSection { voltageLevel := "X", id := "B3", node := 5 }),
    .change (.addBusbarSection { voltageLevel := "X", id := "B0", node := 0 }),
    .change (.addConnectable (.injection
      { owner := 0, id := "LD", terminal := some (.atNode "X" 4294967294) })),
    .change (.addConnectable (.branch
      { owner := 0, id := "L", terminal1 := some (.atBus "U" "BU"),
        terminal2 := some (.atBus "W" "BW") }))]

end Switchyard
