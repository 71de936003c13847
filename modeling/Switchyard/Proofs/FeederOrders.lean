import Switchyard.Proofs.FeederRoundTrip

namespace Switchyard

open Std Network

variable {n m : Network} {c : Connectable} {bays : List LaidBay} {vl id : String} {side : Side}
  {a b : Attachment} {o : FeederOrder}

namespace Network

/-- The side is attached to the voltage level, and its feeder has the order. -/
def HasOrder (n : Network) (vl : String) (a : Attachment) (o : FeederOrder) : Prop :=
  ∃ c t f, n.Keeps a.connectable c ∧ (a.side, t) ∈ c.terminals ∧ t.voltageLevel = vl ∧
    c.feeder? a.side = some f ∧ f.order = some o

/-- No two sides attached to one voltage level have the same feeder order. -/
def OrdersDistinct (n : Network) : Prop :=
  ∀ vl a b o, n.HasOrder vl a o → n.HasOrder vl b o → a = b

theorem HasOrder.mem_feederOrders (h : n.HasOrder vl a o) : o ∈ n.feederOrders vl := by
  obtain ⟨c, t, f, hc, hrest⟩ := h
  exact mem_feederOrders_iff.mpr ⟨_, c, hc, c.mem_ordersIn_iff.mpr ⟨_, t, f, hrest⟩⟩

theorem hasOrder_of_eq (n : Network) (vl id : String) (side : Side) (o : FeederOrder)
    (hvl : ((n.connectable? id).bind (·.terminal? side)).map (·.voltageLevel) = some vl)
    (ho : ((n.connectable? id).bind (·.feeder? side)).bind (·.order) = some o) :
    n.HasOrder vl ⟨id, side⟩ o := by
  cases hc : n.connectable? id with
  | none => simp [hc] at ho
  | some c =>
    rw [hc, Option.bind_some] at hvl ho
    obtain ⟨t, ht, hvl⟩ := Option.map_eq_some_iff.mp hvl
    obtain ⟨f, hf, ho⟩ := Option.bind_eq_some_iff.mp ho
    exact ⟨c, t, f, keeps_of_connectable? hc, Connectable.terminal?_eq_some_iff.mp ht, hvl, hf, ho⟩

theorem ordersDistinct_of_position_eq_none (h : ∀ c ∈ n.connectables, c.position = none) :
    n.OrdersDistinct := by
  rintro vl a b o ⟨c, t, f, hc, -, -, hf, -⟩
  rw [Connectable.feeder?, h c (mem_connectables_iff.mpr ⟨_, hc⟩)] at hf
  cases hf

end Network

namespace FeederBays

variable {d : FeederBays}

/-- Two sides in one voltage level are given the same order, which can be used for
each of them. -/
def Repeats (d : FeederBays) (n : Network) : Prop :=
  ∃ side side' bay bay' t t' o, (side, bay) ∈ d.draft.sides.zip d.bays ∧
    (side', bay') ∈ d.draft.sides.zip d.bays ∧ side ≠ side' ∧
    t.voltageLevel = t'.voltageLevel ∧ n.Ranks bay t o ∧ n.Ranks bay' t' o

theorem Equipped.terminal_of_mem {given : List (Side × FeederBay)} (h : Equipped n c given bays)
    (hn : n.Coherent False) {bay : FeederBay} (hin : (side, bay) ∈ given) {t : BusbarSection}
    (ht : n.busbarSections[bay.target]? = some t) :
    ∃ node, c.terminal? side = some (.atNode t.voltageLevel node) := by
  induction h with
  | nil => cases hin
  | bus hbus _ _ ih =>
    rcases List.mem_cons.mp hin with he | hin
    · cases he
      exact absurd hbus (hn.not_hasBus ht)
    · exact ih hin
  | busbarSection htarget _ hterminal _ ih =>
    rcases List.mem_cons.mp hin with he | hin
    · cases he
      cases ht.symm.trans htarget
      exact ⟨_, hterminal⟩
    · exact ih hin

/-- The orders after are those before and those of the bays that rank. -/
theorem Furnishes.hasOrder_iff (h : d.Furnishes n m c bays) :
    m.HasOrder vl a o ↔ n.HasOrder vl a o ∨ a.connectable = c.id ∧
      ∃ bay t, (a.side, bay) ∈ d.draft.sides.zip d.bays ∧ t.voltageLevel = vl ∧
        n.Ranks bay t o := by
  have hn := h.extended.base
  constructor
  · rintro ⟨e, t, f, he, ht, hvl, hfeeder, horder⟩
    rcases (h.extended.keeps_iff _ e).mp he with hold | ⟨hid, rfl⟩
    · exact Or.inl ⟨e, t, f, hold, ht, hvl, hfeeder, horder⟩
    · obtain ⟨bay, x, o', hbay, hranks, rfl⟩ := (h.feeder_iff _ f).mp hfeeder
      cases hranks.order.symm.trans horder
      obtain ⟨node, hnode⟩ := h.equipped.terminal_of_mem hn hbay hranks.target
      have ht := Connectable.terminal?_eq_some_iff.mpr ht
      cases hnode.symm.trans ht
      exact Or.inr ⟨hid.symm, bay, x, hbay, hvl, hranks⟩
  · rintro (⟨e, t, f, he, hrest⟩ | ⟨hid, bay, t, hbay, rfl, hranks⟩)
    · exact ⟨e, t, f, (h.extended.keeps_iff _ e).mpr (Or.inl he), hrest⟩
    · obtain ⟨node, hnode⟩ := h.equipped.terminal_of_mem hn hbay hranks.target
      refine ⟨c, _, bay.feeder c.id, hid ▸ h.extended.keeps_new rfl,
        Connectable.terminal?_eq_some_iff.mp hnode, rfl, ?_, hranks.order⟩
      exact (h.feeder_iff _ _).mpr ⟨bay, t, o, hbay, hranks, rfl⟩

/-- A new order can only be the same as another new one. -/
theorem Furnishes.ordersDistinct_iff (h : d.Furnishes n m c bays) (hn : n.OrdersDistinct) :
    m.OrdersDistinct ↔ ¬d.Repeats n := by
  constructor
  · rintro hm ⟨side, side', bay, bay', t, t', o, hbay, hbay', hne, hvl, hranks, hranks'⟩
    have hfirst : m.HasOrder t.voltageLevel ⟨c.id, side⟩ o :=
      h.hasOrder_iff.mpr (Or.inr ⟨rfl, bay, t, hbay, rfl, hranks⟩)
    have hsecond : m.HasOrder t.voltageLevel ⟨c.id, side'⟩ o :=
      h.hasOrder_iff.mpr (Or.inr ⟨rfl, bay', t', hbay', hvl.symm, hranks'⟩)
    exact hne (congrArg Attachment.side (hm _ _ _ o hfirst hsecond))
  · intro hrepeats vl a b o ha hb
    rcases h.hasOrder_iff.mp ha with hold | ⟨hid, bay, t, hbay, rfl, hranks⟩ <;>
      rcases h.hasOrder_iff.mp hb with hold' | ⟨hid', bay', t', hbay', hvl, hranks'⟩
    · exact hn vl a b o hold hold'
    · exact absurd (hvl ▸ hold.mem_feederOrders) hranks'.untaken
    · exact absurd hold'.mem_feederOrders hranks.untaken
    · have hside : a.side = b.side := by
        by_contra hne
        exact hrepeats ⟨_, _, bay, bay', t, t', o, hbay, hbay', hne, hvl.symm, hranks, hranks'⟩
      obtain ⟨x, side⟩ := a
      obtain ⟨y, side'⟩ := b
      cases hid
      cases hid'
      cases hside
      rfl

end FeederBays

namespace Modification

/-- In every network that can come about, creating equipment with its feeder bays gives
no feeder order twice, unless two of its own sides in one voltage level are given the
same order: each of them is checked against the network before. -/
theorem ordersDistinct_iff_not_repeats (id : String) (serial : Nat) (ops : List Operation)
    {r : Request} {d : FeederBays} (hbuild : r.build = .ok (.feederBays d))
    {naming : NamingStrategy} {strict : Bool}
    (hdistinct : ((empty id serial).after ops).OrdersDistinct)
    (hcreate : ((feederBays d).apply ((empty id serial).after ops) naming strict).Succeeds) :
    ((feederBays d).apply ((empty id serial).after ops) naming strict).network.OrdersDistinct ↔
      ¬d.Repeats ((empty id serial).after ops) := by
  obtain ⟨t, hok, ht⟩ := Run.ok_of_succeeds hcreate
  have hnetwork : ((feederBays d).apply ((empty id serial).after ops) naming strict).network =
    t.network := ht
  have hn := (coherent_empty False id serial).after ops False.elim
  obtain ⟨c, bays, hfurnishes⟩ := FeederBays.furnishes_of_ok (FeederBays.length_bays hbuild) hn hok
  rw [hnetwork]
  exact hfurnishes.ordersDistinct_iff hdistinct

/-- A busbar section with a position, and nothing else. -/
def placedBusbar : List Operation :=
  [.change (.addVoltageLevel { id := "V" }),
    .change (.addBusbarSection
      { voltageLevel := "V", id := "B", node := 0, position := some ⟨1, 1⟩ })]

/-- A line with both its sides at the busbar section. -/
def loopedLine (order1 order2 : FeederOrder) : FeederBays where
  draft := .branch { owner := 0, id := "L" }
  bays := [{ target := "B", order := some order1 }, { target := "B", order := some order2 }]
  force := false

theorem ordersDistinct_placedBusbar : ((empty "N" 0).after placedBusbar).OrdersDistinct :=
  ordersDistinct_of_position_eq_none (by decide +kernel)

theorem ordersDistinct_iff_not_repeats_loopedLine :
    ((feederBays (loopedLine 10 20)).apply ((empty "N" 0).after placedBusbar) .standard
        true).network.OrdersDistinct ↔
      ¬(loopedLine 10 20).Repeats ((empty "N" 0).after placedBusbar) :=
  ordersDistinct_iff_not_repeats "N" 0 placedBusbar
    (r := .branchBays
      { draft := some { owner := 0, id := "L" }
        bay1 := (loopedLine 10 20).bays[0]?
        bay2 := (loopedLine 10 20).bays[1]? })
    rfl ordersDistinct_placedBusbar (by decide +kernel)

/-- Both sides of the line get the one order that they are given. -/
theorem order_repeated_loopedLine :
    ((empty "N" 0).after placedBusbar).OrdersDistinct ∧
      ((feederBays (loopedLine 10 10)).apply ((empty "N" 0).after placedBusbar) .standard
        true).Succeeds ∧
      ¬((feederBays (loopedLine 10 10)).apply ((empty "N" 0).after placedBusbar) .standard
        true).network.OrdersDistinct := by
  refine ⟨ordersDistinct_placedBusbar, by decide +kernel, fun hdistinct => ?_⟩
  have hone := hasOrder_of_eq ((feederBays (loopedLine 10 10)).apply
    ((empty "N" 0).after placedBusbar) .standard true).network "V" "L" .one 10
    (by decide +kernel) (by decide +kernel)
  have htwo := hasOrder_of_eq ((feederBays (loopedLine 10 10)).apply
    ((empty "N" 0).after placedBusbar) .standard true).network "V" "L" .two 10
    (by decide +kernel) (by decide +kernel)
  cases hdistinct _ _ _ _ hone htwo

end Modification

end Switchyard
