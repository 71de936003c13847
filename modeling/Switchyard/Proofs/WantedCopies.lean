import Switchyard.FeederConnection
import Switchyard.Proofs.CopiedSwitches

namespace Switchyard

open Std Network Run

/-- The position of a busbar section, if it has one. -/
def Network.position? (n : Network) (id : String) : Option BusbarPosition :=
  n.busbarSections[id]?.bind (·.position)

namespace FeederConnection

variable {c : FeederConnection} {n m : Network} {s t : Session} {naming : NamingStrategy}
  {vl base : String} {w w' : Wiring} {S : Set Switch} {f : Node} {r : RailSwitch}
  {b : BusbarSection} {q : BusbarPosition}

/-- Switches that lead to the node are to be copied: a requested feeder is behind it, or a
coupling of two busbars. -/
def Wants (c : FeederConnection) (n : Network) (w : Wiring) (f : Node) : Prop :=
  (∃ x y, w.Beside f x ∧ x.connectable ∉ n.busbarSections ∧ w.Beside f y ∧
    y.connectable ∈ c.connectables) ∨
  c.couplings = true ∧ (∀ x, w.Beside f x → x.connectable ∈ n.busbarSections) ∧
    ∃ x y p q, w.Beside f x ∧ w.Beside f y ∧ n.position? x.connectable = some p ∧
      n.position? y.connectable = some q ∧ p.busbarIndex ≠ q.busbarIndex

theorem wants_congr (h : m.busbarSections = n.busbarSections) :
    c.Wants m w f ↔ c.Wants n w f := by
  simp only [Wants, position?, h]

theorem isCoupling_iff :
    n.isCoupling r = true ↔ ∀ x ∈ r.attachments, x.connectable ∈ n.busbarSections := by
  simp [isCoupling]

/-- A coupling is kept for another busbar behind it, other switches for a requested feeder. -/
theorem keeps_iff :
    c.keeps n q r = true ↔
      n.isCoupling r = true ∧ c.couplings = true ∧
          (∃ x ∈ r.attachments, ∃ p, n.position? x.connectable = some p ∧
            p.busbarIndex ≠ q.busbarIndex) ∨
        n.isCoupling r = false ∧ ∃ x ∈ r.attachments, x.connectable ∈ c.connectables := by
  have hany : ∀ {o : Option BusbarPosition}, o.any (·.busbarIndex != q.busbarIndex) = true ↔
      ∃ p, o = some p ∧ p.busbarIndex ≠ q.busbarIndex := fun {o} => by cases o <;> simp
  unfold keeps position?
  cases n.isCoupling r <;> simp only [if_true, Bool.false_eq_true, if_false, Bool.and_eq_true,
    List.any_eq_true, hany, decide_eq_true_eq, true_and, false_and, or_false, false_or,
    reduceCtorEq]

theorem placed_spec (hn : n.Coherent False) (hb : (b, q) ∈ n.placedSections vl) :
    n.HasRail vl b.rail ∧ n.position? b.id = some q ∧ b.id ∈ n.busbarSections := by
  obtain ⟨hid, rfl, hq⟩ := hn.mem_placedSections_iff.mp hb
  exact ⟨hn.hasRail hid, by simp [position?, hid, hq], mem_iff_exists_getElem?.mpr ⟨b, hid⟩⟩

theorem placed_unique (hn : n.Coherent False) {b' : BusbarSection} {q' : BusbarPosition}
    (hb : (b, q) ∈ n.placedSections vl) (hb' : (b', q') ∈ n.placedSections vl)
    (hnode : b.node = b'.node) : b = b' ∧ q = q' := by
  have hrail := hn.rail_eq_of_node (placed_spec hn hb).1 (placed_spec hn hb').1 hnode
  obtain ⟨hsome, -, hq⟩ := hn.mem_placedSections_iff.mp hb
  obtain ⟨hsome', -, hq'⟩ := hn.mem_placedSections_iff.mp hb'
  have hid : b.id = b'.id := congrArg Rail.id hrail
  rw [hid, hsome'] at hsome
  obtain rfl := Option.some.inj hsome
  exact ⟨rfl, Option.some.inj (hq.symm.trans hq')⟩

/-- The section itself is met behind the switches at its node. -/
theorem beside_of_joined (hn : n.Coherent False) (hw : n.inside? vl = some (.nodeBreaker w))
    {rail : Rail} (hr : n.HasRail vl rail) (hjoined : w.Joined rail.node f) :
    w.Beside f ⟨rail.id, .one⟩ := by
  obtain ⟨e, he, -, hends⟩ := hjoined
  exact ⟨e, he, f, rail.node, .refl, hends.symm, hn.terminal_rail hr hw⟩

theorem wants_of_keeps (hn : n.Coherent False) (hw : n.inside? vl = some (.nodeBreaker w))
    (hb : (b, q) ∈ n.placedSections vl) (hfound : (w.railSwitches b.rail)[f]? = some r)
    (hf : w.Plain f) (hkeeps : c.keeps n q r = true) : c.Wants n w f := by
  obtain ⟨hr, hq, hin⟩ := placed_spec hn hb
  obtain ⟨-, -, -, hjoined, -, -⟩ := Wiring.railSwitches_spec (hn.not_plain_rail hr hw) hfound
  have hmem : ∀ {x}, x ∈ r.attachments ↔ w.Beside f x ∧ x ≠ ⟨b.id, .one⟩ :=
    hn.mem_attachments_iff hr hw hfound hf
  rcases keeps_iff.mp hkeeps with ⟨hcoupling, hon, x, hx, p, hp, hne⟩ | ⟨hcoupling, x, hx, hc⟩
  · refine Or.inr ⟨hon, fun y hy => ?_, x, ⟨b.id, .one⟩, p, q, (hmem.mp hx).1,
      beside_of_joined hn hw hr hjoined, hp, hq, hne⟩
    by_cases hself : y = ⟨b.id, .one⟩
    · exact hself ▸ hin
    · exact isCoupling_iff.mp hcoupling y (hmem.mpr ⟨hy, hself⟩)
  · have hother : ∃ y ∈ r.attachments, y.connectable ∉ n.busbarSections := by
      by_contra hall
      rw [isCoupling_iff.mpr fun y hy => by_contra fun hout => hall ⟨y, hy, hout⟩] at hcoupling
      cases hcoupling
    obtain ⟨y, hy, hout⟩ := hother
    exact Or.inl ⟨y, x, (hmem.mp hy).1, hout, (hmem.mp hx).1, hc⟩

/-- What is wanted shows from every section: no feeder is one, and two busbars are not both
its own. -/
theorem wants_cases (hn : n.Coherent False) (hb : (b, q) ∈ n.placedSections vl)
    (hreq : ∀ id ∈ c.connectables, id ∉ n.busbarSections) (h : c.Wants n w f) :
    (∃ x y, w.Beside f x ∧ x ≠ ⟨b.id, .one⟩ ∧ x.connectable ∉ n.busbarSections ∧ w.Beside f y ∧
      y ≠ ⟨b.id, .one⟩ ∧ y.connectable ∈ c.connectables) ∨
    c.couplings = true ∧ (∀ x, w.Beside f x → x.connectable ∈ n.busbarSections) ∧
      ∃ x p, w.Beside f x ∧ x ≠ ⟨b.id, .one⟩ ∧ n.position? x.connectable = some p ∧
        p.busbarIndex ≠ q.busbarIndex := by
  obtain ⟨-, hq, hin⟩ := placed_spec hn hb
  rcases h with ⟨x, y, hx, hout, hy, hc⟩ | ⟨hon, hall, x, y, p, p', hx, hy, hp, hp', hne⟩
  · refine Or.inl ⟨x, y, hx, ?_, hout, hy, ?_, hc⟩
    · rintro rfl
      exact hout hin
    · rintro rfl
      exact hreq _ hc hin
  · have hself : ∀ {z : Attachment} {p}, n.position? z.connectable = some p →
        p.busbarIndex ≠ q.busbarIndex → z ≠ ⟨b.id, .one⟩ := by
      rintro z p hp hne rfl
      rw [hq] at hp
      exact hne (Option.some.inj hp ▸ rfl)
    refine Or.inr ⟨hon, hall, ?_⟩
    by_cases hpq : p.busbarIndex = q.busbarIndex
    · exact ⟨y, p', hy, hself hp' (hpq ▸ hne.symm), hp', hpq ▸ hne.symm⟩
    · exact ⟨x, p, hx, hself hp hpq, hp, hpq⟩

theorem keeps_of_wants (hn : n.Coherent False) (hw : n.inside? vl = some (.nodeBreaker w))
    (hb : (b, q) ∈ n.placedSections vl) (hreq : ∀ id ∈ c.connectables, id ∉ n.busbarSections)
    (h : c.Wants n w f) (hfound : (w.railSwitches b.rail)[f]? = some r) (hf : w.Plain f) :
    c.keeps n q r = true := by
  have hmem : ∀ {x}, x ∈ r.attachments ↔ w.Beside f x ∧ x ≠ ⟨b.id, .one⟩ :=
    hn.mem_attachments_iff (placed_spec hn hb).1 hw hfound hf
  rw [keeps_iff]
  rcases wants_cases hn hb hreq h with ⟨x, y, hx, hxb, hout, hy, hyb, hc⟩ |
    ⟨hon, hall, x, p, hx, hxb, hp, hne⟩
  · refine Or.inr ⟨Bool.eq_false_iff.mpr fun hcoupling => ?_, y, hmem.mpr ⟨hy, hyb⟩, hc⟩
    exact hout (isCoupling_iff.mp hcoupling x (hmem.mpr ⟨hx, hxb⟩))
  · exact Or.inl ⟨isCoupling_iff.mpr fun y hy => hall y (hmem.mp hy).1, hon, x,
      hmem.mpr ⟨hx, hxb⟩, p, hp, hne⟩

/-- A switch of a section that leads to what is wanted is found, by one of the nodes there. -/
theorem exists_railSwitch_of_wants (hn : n.Coherent False)
    (hw : n.inside? vl = some (.nodeBreaker w)) (hb : (b, q) ∈ n.placedSections vl)
    (hreq : ∀ id ∈ c.connectables, id ∉ n.busbarSections) (h : c.Wants n w f)
    (hjoined : w.Joined b.node f) (hf : w.Plain f) :
    ∃ g r, (w.railSwitches b.rail)[g]? = some r ∧ w.Plain g ∧ w.Inner f g := by
  have hr := (placed_spec hn hb).1
  have hother : ∃ x, w.Beside f x ∧ x ≠ ⟨b.id, .one⟩ := by
    rcases wants_cases hn hb hreq h with ⟨x, -, hx, hxb, -⟩ | ⟨-, -, x, -, hx, hxb, -⟩ <;>
      exact ⟨x, hx, hxb⟩
  obtain ⟨x, ⟨e, he, a, d, ha, hends, hx⟩, hxb⟩ := hother
  refine Wiring.exists_railSwitch (hn.not_plain_rail hr hw) hjoined hf he
    ⟨a, d, ha, hends, fun hd => ?_, hx⟩
  have hrail := hn.terminal_rail hr hw
  rw [← hd, hx] at hrail
  exact hxb (Option.some.inj hrail)

/-- Copies to where switches are wanted change nothing about what is wanted. -/
theorem wants_iff (hn : n.Coherent False) (hw : n.inside? vl = some (.nodeBreaker w))
    (h : w.Widened S w') (hrails : ∀ x ∈ S, ∃ rail, n.HasRail vl rail ∧ rail.node = x.node1)
    (hS : ∀ x ∈ S, w.Plain x.node2 → c.Wants n w x.node2) (hf : w.Plain f) :
    c.Wants n w' f ↔ c.Wants n w f := by
  have hsection : ∀ x ∈ S, ∀ a, w.terminals[x.node1]? = some a →
      a.connectable ∈ n.busbarSections := by
    intro x hx a ha
    obtain ⟨rail, hr, hnode⟩ := hrails x hx
    rw [← hnode, hn.terminal_rail hr hw] at ha
    obtain ⟨b, hb, -⟩ := hr
    exact Option.some.inj ha ▸ mem_iff_exists_getElem?.mpr ⟨b, hb⟩
  have hmono : ∀ {a}, w.Beside f a → w'.Beside f a := fun ha => (h.beside_iff hf).mpr (Or.inl ha)
  constructor
  · intro hwants
    by_cases hcopied : ∃ x ∈ S, w.Inner f x.node2
    · obtain ⟨x, hx, hinner⟩ := hcopied
      have hwanted := hS x hx (Wiring.plain_of_inner hf hinner)
      simpa only [Wants, Wiring.beside_congr hf hinner] using hwanted
    · have hsame : ∀ a, w'.Beside f a ↔ w.Beside f a := fun a =>
        (h.beside_iff hf).trans (or_iff_left fun ⟨x, hx, hinner, _⟩ => hcopied ⟨x, hx, hinner⟩)
      simpa only [Wants, hsame] using hwants
  · rintro (⟨x, y, hx, hout, hy, hc⟩ | ⟨hon, hall, x, y, p, q, hx, hy, hpq⟩)
    · exact Or.inl ⟨x, y, hmono hx, hout, hmono hy, hc⟩
    · refine Or.inr ⟨hon, fun a ha => ?_, x, y, p, q, hmono hx, hmono hy, hpq⟩
      rcases (h.beside_iff hf).mp ha with ha | ⟨z, hz, -, ha⟩
      · exact hall a ha
      · exact hsection z hz a ha

end FeederConnection

end Switchyard
