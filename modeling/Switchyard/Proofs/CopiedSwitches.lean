import Switchyard.Proofs.BayRails
import Switchyard.Proofs.RailSearches

namespace Switchyard

open Std Network Relation

namespace Wiring

variable {w w' : Wiring} {S : Set Switch} {f g a b node : Node} {x : Attachment} {e : Edge}

/-- The side is met first behind the node. -/
def Beside (w : Wiring) (f : Node) (x : Attachment) : Prop :=
  ∃ e ∈ w.edgeList, ∃ b c, w.Inner f b ∧ e.Between b c ∧ w.terminals[c]? = some x

/-- How many switches and internal connections join the node to what is behind `f`. -/
noncomputable def meetings (w : Wiring) (f node : Node) : Nat :=
  w.edgeList.countP fun e =>
    @decide (∃ b, w.Inner f b ∧ e.Between b node) (Classical.propDecidable _)

theorem meetings_pos_iff :
    0 < w.meetings f node ↔ ∃ e ∈ w.edgeList, ∃ b, w.Inner f b ∧ e.Between b node := by
  simp [meetings, List.countP_pos_iff]

theorem beside_congr (hf : w.Plain f) (h : w.Inner f g) : w.Beside f x ↔ w.Beside g x := by
  constructor
  · rintro ⟨e, he, b, c, hb, hends, hx⟩
    exact ⟨e, he, b, c, (inner_symm hf h).trans hb, hends, hx⟩
  · rintro ⟨e, he, b, c, hb, hends, hx⟩
    exact ⟨e, he, b, c, h.trans hb, hends, hx⟩

theorem Sound.isSome_switchOf_iff (h : w.Sound) (he : e ∈ w.edgeList) :
    (w.switchOf e).isSome ↔ e.link ≠ .connection := by
  obtain ⟨k, hk⟩ := mem_values_iff.mp he
  unfold switchOf
  cases hl : e.link with
  | connection => simp
  | switch id =>
    obtain ⟨s, hs, -⟩ := h.switch_of_edge hk hl
    simp [hs]

/-- The second wiring is the first one with the switches `S` besides, each of them from a node
that holds a terminal. -/
structure Widened (w : Wiring) (S : Set Switch) (w' : Wiring) : Prop extends
    Carries w S ∅ w' where
  sound_old : w.Sound
  sound_new : w'.Sound
  held : ∀ s ∈ S, ¬w.Plain s.node1

namespace Widened

theorem getElem?_terminals (h : w.Widened S w') (a : Node) : w'.terminals[a]? = w.terminals[a]? :=
  h.terminal_old a (by simp)

theorem plain_iff (h : w.Widened S w') : w'.Plain a ↔ w.Plain a := by
  rw [Wiring.plain_iff, Wiring.plain_iff, h.getElem?_terminals]

theorem mem_edgeList_iff (h : w.Widened S w') :
    e ∈ w'.edgeList ↔ e ∈ w.edgeList ∨ ∃ s ∈ S, e = s.edge :=
  h.toCarries.mem_edgeList_iff h.sound_old h.sound_new

/-- No way between nodes without terminals is new. -/
theorem inner_iff (h : w.Widened S w') (hf : w.Plain f) : w'.Inner f b ↔ w.Inner f b := by
  constructor
  · intro hinner
    induction hinner with
    | refl => exact .refl
    | @tail b c _ hstep ih =>
      obtain ⟨⟨e, he, hends⟩, hc⟩ := hstep
      have hc := h.plain_iff.mp hc
      rcases h.mem_edgeList_iff.mp he with hold | ⟨s, hs, rfl⟩
      · exact ih.tail ⟨⟨e, hold, hends⟩, hc⟩
      · rcases hends.touches_iff.mp (Edge.touches_iff.mpr (Or.inl rfl)) with hat | hat
        · have hat : s.node1 = b := hat
          exact absurd (hat ▸ plain_of_inner hf ih) (h.held s hs)
        · have hat : s.node1 = c := hat
          exact absurd (hat ▸ hc) (h.held s hs)
  · exact ReflTransGen.mono (fun b c ⟨⟨e, he, hends⟩, hc⟩ =>
      ⟨⟨e, h.mem_edgeList_iff.mpr (Or.inl he), hends⟩, h.plain_iff.mpr hc⟩) _ _

theorem joined_iff (h : w.Widened S w') :
    w'.Joined a b ↔ w.Joined a b ∨ ∃ s ∈ S, s.edge.Between a b := by
  constructor
  · rintro ⟨e, he, hswitch, hends⟩
    rcases h.mem_edgeList_iff.mp he with hold | ⟨s, hs, rfl⟩
    · have hlink := (h.sound_new.isSome_switchOf_iff he).mp hswitch
      exact Or.inl ⟨e, hold, (h.sound_old.isSome_switchOf_iff hold).mpr hlink, hends⟩
    · exact Or.inr ⟨s, hs, hends⟩
  · rintro (⟨e, he, hswitch, hends⟩ | ⟨s, hs, hends⟩)
    · have hnew := h.mem_edgeList_iff.mpr (Or.inl he)
      have hlink := (h.sound_old.isSome_switchOf_iff he).mp hswitch
      exact ⟨e, hnew, (h.sound_new.isSome_switchOf_iff hnew).mpr hlink, hends⟩
    · have hnew := h.mem_edgeList_iff.mpr (Or.inr ⟨s, hs, rfl⟩)
      exact ⟨s.edge, hnew, (h.sound_new.isSome_switchOf_iff hnew).mpr (by simp [Switch.edge]),
        hends⟩

/-- The sides that are met behind a node are those met before, and those where the new
switches come from. -/
theorem beside_iff (h : w.Widened S w') (hf : w.Plain f) :
    w'.Beside f x ↔
      w.Beside f x ∨ ∃ s ∈ S, w.Inner f s.node2 ∧ w.terminals[s.node1]? = some x := by
  constructor
  · rintro ⟨e, he, b, c, hb, hends, hx⟩
    rw [h.inner_iff hf] at hb
    rw [h.getElem?_terminals] at hx
    rcases h.mem_edgeList_iff.mp he with hold | ⟨s, hs, rfl⟩
    · exact Or.inl ⟨e, hold, b, c, hb, hends, hx⟩
    · rcases hends with ⟨rfl, rfl⟩ | ⟨rfl, rfl⟩
      · exact absurd (plain_of_inner hf hb) (h.held s hs)
      · exact Or.inr ⟨s, hs, hb, hx⟩
  · rintro (⟨e, he, b, c, hb, hends, hx⟩ | ⟨s, hs, hb, hx⟩)
    · exact ⟨e, h.mem_edgeList_iff.mpr (Or.inl he), b, c, (h.inner_iff hf).mpr hb, hends,
        (h.getElem?_terminals c).trans hx⟩
    · exact ⟨s.edge, h.mem_edgeList_iff.mpr (Or.inr ⟨s, hs, rfl⟩), s.node2, s.node1,
        (h.inner_iff hf).mpr hb, Or.inr ⟨rfl, rfl⟩, (h.getElem?_terminals _).trans hx⟩

theorem meetings_le (h : w.Widened S w') (hf : w.Plain f) (node : Node) :
    w.meetings f node ≤ w'.meetings f node := by
  have hsub : w.edgeList.Subperm w'.edgeList :=
    values_subperm fun k e he => h.edge_kept h.sound_old he
  refine (hsub.countP_le _).trans (Nat.le_of_eq (List.countP_congr fun e _ => ?_))
  simp [h.inner_iff hf]

end Widened

end Wiring

namespace Network

variable {n : Network} {vl : String} {w : Wiring} {rail target : Rail} {f a : Node} {side : Side}
  {x : Attachment} {r : RailSwitch}

theorem Coherent.terminal_rail (h : n.Coherent False) (hr : n.HasRail vl rail)
    (hw : n.inside? vl = some (.nodeBreaker w)) :
    w.terminals[rail.node]? = some ⟨rail.id, .one⟩ := by
  obtain ⟨u, hu, ha⟩ := h.holds_rail hr
  cases hw.symm.trans hu
  exact ha

theorem Coherent.not_plain_rail (h : n.Coherent False) (hr : n.HasRail vl rail)
    (hw : n.inside? vl = some (.nodeBreaker w)) : ¬w.Plain rail.node :=
  Wiring.not_plain_of_terminal (h.terminal_rail hr hw)

theorem Coherent.rail_of_terminal (h : n.Coherent False) (hr : n.HasRail vl rail)
    (hw : n.inside? vl = some (.nodeBreaker w)) (ha : w.terminals[a]? = some ⟨rail.id, side⟩) :
    a = rail.node ∧ side = .one := by
  obtain ⟨c, hc, hside⟩ := (h.holdsAt_iff vl a ⟨rail.id, side⟩).mp ⟨w, hw, ha⟩
  obtain ⟨b, hb, rfl, hnode⟩ := hr
  cases h.keeps_unique hc (d := .busbarSection b) hb
  obtain ⟨rfl, hat⟩ := Prod.mk.inj (List.mem_singleton.mp hside)
  simp only [BusbarSection.terminal, Terminal.atNode, Terminal.mk.injEq,
    Connection.node.injEq, true_and] at hat
  exact ⟨hat.trans hnode, rfl⟩

/-- The sides found behind a switch of a busbar section, by a node without terminal, are those
that are met there, but for the section itself. -/
theorem Coherent.mem_attachments_iff (h : n.Coherent False) (hr : n.HasRail vl rail)
    (hw : n.inside? vl = some (.nodeBreaker w)) (hfound : (w.railSwitches rail)[f]? = some r)
    (hf : w.Plain f) : x ∈ r.attachments ↔ w.Beside f x ∧ x ≠ ⟨rail.id, .one⟩ := by
  obtain ⟨-, -, -, -, hcount, -⟩ := Wiring.railSwitches_spec (h.not_plain_rail hr hw) hfound
  rw [← List.count_pos_iff, hcount hf x, List.countP_pos_iff]
  constructor
  · rintro ⟨e, he, hleads⟩
    obtain ⟨b, c, hb, hends, hc, hx⟩ := Wiring.leads_eq_true_iff.mp hleads
    refine ⟨⟨e, he, b, c, hb, hends, hx⟩, ?_⟩
    rintro rfl
    exact hc (h.rail_of_terminal hr hw hx).1
  · rintro ⟨⟨e, he, b, c, hb, hends, hx⟩, hne⟩
    refine ⟨e, he, Wiring.leads_eq_true_iff.mpr ⟨b, c, hb, hends, fun hc => ?_, hx⟩⟩
    rw [hc, h.terminal_rail hr hw] at hx
    exact hne (Option.some.inj hx).symm

/-- Another busbar section is found as often as it meets what is behind the switch. -/
theorem Coherent.occurrences_eq (h : n.Coherent False) (hr : n.HasRail vl rail)
    (ht : n.HasRail vl target) (hne : target.id ≠ rail.id)
    (hw : n.inside? vl = some (.nodeBreaker w)) (hfound : (w.railSwitches rail)[f]? = some r)
    (hf : w.Plain f) :
    (r.attachments.filter (·.connectable == target.id)).length = w.meetings f target.node := by
  obtain ⟨-, -, -, -, hcount, -⟩ := Wiring.railSwitches_spec (h.not_plain_rail hr hw) hfound
  have hside : ∀ x ∈ r.attachments, (x.connectable == target.id) = true ↔
      (x == (⟨target.id, .one⟩ : Attachment)) = true := by
    intro x hx
    rw [beq_iff_eq, beq_iff_eq]
    refine ⟨fun hid => ?_, fun hx => hx ▸ rfl⟩
    obtain ⟨⟨_, _, _, c, -, -, hc⟩, -⟩ := (h.mem_attachments_iff hr hw hfound hf).mp hx
    obtain ⟨id, side⟩ := x
    obtain rfl : id = target.id := hid
    rw [(h.rail_of_terminal ht hw hc).2]
  rw [← List.countP_eq_length_filter, List.countP_congr hside]
  refine (hcount hf _).trans (List.countP_congr fun e _ => ?_)
  simp only [Wiring.leads_eq_true_iff, decide_eq_true_eq]
  constructor
  · rintro ⟨b, c, hb, hends, -, hx⟩
    exact ⟨b, hb, (h.rail_of_terminal ht hw hx).1 ▸ hends⟩
  · rintro ⟨b, hb, hends⟩
    refine ⟨b, target.node, hb, hends, fun hnode => ?_, h.terminal_rail ht hw⟩
    exact hne (congrArg Rail.id (h.rail_eq_of_node ht hr hnode))

end Network

end Switchyard
