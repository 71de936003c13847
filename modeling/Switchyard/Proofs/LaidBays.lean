import Switchyard.Proofs.Elsewhere
import Switchyard.Proofs.Nodes
import Switchyard.Proofs.Star

namespace Switchyard

open Std Network

/-- The switch with no id. -/
def Switch.unnamed (s : Switch) : Switch :=
  { s with id := "" }

def baySwitch (voltageLevel : String) (kind : SwitchKind) (node1 node2 : Node) (isOpen : Bool) :
    Switch :=
  { id := "", name := none, voltageLevel, kind, node1, node2, isOpen,
    retained := kind = .breaker, fictitious := false }

/-- The busbar section is in the voltage level, at its node. -/
def Network.HasRail (n : Network) (vl : String) (r : Rail) : Prop :=
  ∃ b, n.busbarSections[r.id]? = some b ∧ b.voltageLevel = vl ∧ b.node = r.node

/-- A feeder bay, but for the ids of its switches: a breaker, and a disconnector
to each rail, closed to the target only. -/
structure BayPlan where
  voltageLevel : String
  nodes : BayNodes
  target : String
  rails : List Rail

namespace BayPlan

def breaker (p : BayPlan) : Switch :=
  baySwitch p.voltageLevel .breaker p.nodes.equipment p.nodes.fork false

def disconnector (p : BayPlan) (r : Rail) : Switch :=
  baySwitch p.voltageLevel .disconnector p.nodes.fork r.node (r.id != p.target)

/-- The rails of the bay are there. -/
structure Railed (p : BayPlan) (n : Network) : Prop where
  rails : ∀ r ∈ p.rails, n.HasRail p.voltageLevel r
  nodup : p.rails.Nodup

/-- The bay is laid on nodes of its own: two that are not in use, and its rails are there. -/
structure Fits (p : BayPlan) (n : Network) : Prop extends Railed p n where
  wired : ∃ w, n.inside? p.voltageLevel = some (.nodeBreaker w) ∧ p.nodes.equipment ∉ w.places ∧
    p.nodes.fork ∉ w.places
  distinct : p.nodes.equipment ≠ p.nodes.fork

/-- Bays in one voltage level have nodes of their own. -/
def Apart (p q : BayPlan) : Prop :=
  p.voltageLevel = q.voltageLevel →
    p.nodes.equipment ≠ q.nodes.equipment ∧ p.nodes.equipment ≠ q.nodes.fork ∧
      p.nodes.fork ≠ q.nodes.equipment ∧ p.nodes.fork ≠ q.nodes.fork

/-- The switches of a bay, with no ids. -/
def switches (p : BayPlan) : List Switch :=
  p.breaker :: p.rails.map p.disconnector

theorem voltageLevel_of_mem {p : BayPlan} {s : Switch} (hs : s ∈ p.switches) :
    s.voltageLevel = p.voltageLevel := by
  rcases List.mem_cons.mp hs with rfl | hs
  · rfl
  · obtain ⟨r, -, rfl⟩ := List.mem_map.mp hs
    rfl

theorem node1_of_mem {p : BayPlan} {s : Switch} (hs : s ∈ p.switches) :
    s.node1 = p.nodes.equipment ∨ s.node1 = p.nodes.fork := by
  rcases List.mem_cons.mp hs with rfl | hs
  · exact Or.inl rfl
  · obtain ⟨r, -, rfl⟩ := List.mem_map.mp hs
    exact Or.inr rfl

theorem Apart.disjoint {p q : BayPlan} (h : p.Apart q) : p.switches.Disjoint q.switches := by
  intro s hp hq
  obtain ⟨h1, h2, h3, h4⟩ := h ((voltageLevel_of_mem hp).symm.trans (voltageLevel_of_mem hq))
  rcases node1_of_mem hp with hpn | hpn <;> rcases node1_of_mem hq with hqn | hqn
  · exact h1 (hpn.symm.trans hqn)
  · exact h2 (hpn.symm.trans hqn)
  · exact h3 (hpn.symm.trans hqn)
  · exact h4 (hpn.symm.trans hqn)

end BayPlan

/-- The switches of a bay, under the ids they were given. -/
structure LaidBay extends BayPlan where
  first : Switch
  others : List Switch
  first_eq : first.unnamed = toBayPlan.breaker
  others_eq : others.map (·.unnamed) = rails.map toBayPlan.disconnector

namespace LaidBay

def switches (b : LaidBay) : List Switch :=
  b.first :: b.others

variable {b : LaidBay} {s : Switch}

theorem first_ends (b : LaidBay) :
    b.first.voltageLevel = b.voltageLevel ∧ b.first.node1 = b.nodes.equipment ∧
      b.first.node2 = b.nodes.fork :=
  ⟨congrArg Switch.voltageLevel b.first_eq, congrArg Switch.node1 b.first_eq,
    congrArg Switch.node2 b.first_eq⟩

theorem others_ends (hs : s ∈ b.others) :
    s.voltageLevel = b.voltageLevel ∧ s.node1 = b.nodes.fork ∧ ∃ r ∈ b.rails, s.node2 = r.node := by
  have hm : s.unnamed ∈ b.rails.map b.disconnector := by
    rw [← b.others_eq]
    exact List.mem_map_of_mem hs
  obtain ⟨r, hr, he⟩ := List.mem_map.mp hm
  exact ⟨(congrArg Switch.voltageLevel he).symm, (congrArg Switch.node1 he).symm, r, hr,
    (congrArg Switch.node2 he).symm⟩

theorem switches_unnamed (b : LaidBay) : b.switches.map (·.unnamed) = b.toBayPlan.switches := by
  rw [switches, List.map_cons, b.first_eq, b.others_eq, BayPlan.switches]

theorem unnamed_mem (hs : s ∈ b.switches) : s.unnamed ∈ b.toBayPlan.switches :=
  b.switches_unnamed ▸ List.mem_map_of_mem hs

theorem voltageLevel_of_mem (hs : s ∈ b.switches) : s.voltageLevel = b.voltageLevel :=
  BayPlan.voltageLevel_of_mem (s := s.unnamed) (unnamed_mem hs)

theorem node1_of_mem (hs : s ∈ b.switches) :
    s.node1 = b.nodes.equipment ∨ s.node1 = b.nodes.fork :=
  BayPlan.node1_of_mem (s := s.unnamed) (unnamed_mem hs)

/-- The switches of a bay are at its two nodes and at its busbar sections. -/
theorem meets_cases {node : Node} (hs : s ∈ b.switches) (hmeets : s.Meets node) :
    b.nodes.equipment = node ∨ b.nodes.fork = node ∨ ∃ r ∈ b.rails, r.node = node := by
  rw [Switch.meets_iff] at hmeets
  rcases List.mem_cons.mp hs with rfl | hs
  · obtain ⟨-, h1, h2⟩ := b.first_ends
    rw [h1, h2] at hmeets
    exact hmeets.imp_right Or.inl
  · obtain ⟨-, h1, r, hr, h2⟩ := others_ends hs
    rw [h1, h2] at hmeets
    exact Or.inr (hmeets.imp_right fun hat => ⟨r, hr, hat⟩)

end LaidBay

/-- All the switches of some bays. -/
def laid (bays : List LaidBay) : Set Switch :=
  {s | ∃ b ∈ bays, s ∈ b.switches}

@[simp] theorem laid_nil : laid [] = ∅ := by
  simp [laid]

variable {X : Set String} {S : Set Switch} {C : Set Connectable} {n m : Network} {vl : String}

theorem Network.Coherent.holds_rail (h : n.Coherent False) {r : Rail} (hr : n.HasRail vl r) :
    n.HoldsAt vl r.node ⟨r.id, .one⟩ := by
  obtain ⟨b, hb, rfl, hnode⟩ := hr
  rw [← hnode]
  exact (h.holdsAt_iff _ _ _).mpr ⟨.busbarSection b, hb, List.mem_cons_self⟩

theorem Network.Coherent.occupant_rail (h : n.Coherent False) {r : Rail} (hr : n.HasRail vl r)
    {w : Wiring} (hw : n.inside? vl = some (.nodeBreaker w)) : n.occupant w r.node = .rail := by
  obtain ⟨u, hu, ha⟩ := h.holds_rail hr
  rw [hw] at hu
  cases hu
  obtain ⟨b, hb, -⟩ := hr
  have hm : n.busbarSections.contains r.id = true :=
    ExtTreeMap.contains_iff_mem.mpr (mem_iff_exists_getElem?.mpr ⟨b, hb⟩)
  unfold occupant
  rw [ha]
  simp [hm]

theorem Network.Coherent.referenced_rail (h : n.Coherent False) {r : Rail} (hr : n.HasRail vl r)
    {w : Wiring} (hw : n.inside? vl = some (.nodeBreaker w)) : w.Referenced r.node := by
  obtain ⟨u, hu, ha⟩ := h.holds_rail hr
  rw [hw] at hu
  cases hu
  exact Or.inl (mem_iff_exists_getElem?.mpr ⟨_, ha⟩)

/-- Where a bay ends at a node that was there, its busbar section is there. -/
theorem LaidBay.referenced_of_meets {b : LaidBay} {s : Switch} {node : Node} {w : Wiring}
    (h : n.Coherent False) (hfits : b.Fits n) (hs : s ∈ b.switches) (hmeets : s.Meets node)
    (hw : n.inside? s.voltageLevel = some (.nodeBreaker w)) (hp : node ∈ w.places) :
    w.Referenced node := by
  obtain ⟨w', hw', hequipment, hfork⟩ := hfits.wired
  rw [voltageLevel_of_mem hs] at hw
  cases hw.symm.trans hw'
  rcases List.mem_cons.mp hs with rfl | hs <;> rcases Switch.meets_iff.mp hmeets with rfl | rfl
  · exact absurd (b.first_ends.2.1 ▸ hp) hequipment
  · exact absurd (b.first_ends.2.2 ▸ hp) hfork
  · exact absurd ((others_ends hs).2.1 ▸ hp) hfork
  · obtain ⟨-, -, r, hr, hnode⟩ := others_ends hs
    exact hnode ▸ h.referenced_rail (hfits.rails r hr) hw

theorem Network.Extended.hasRail_iff (h : Extended X S C n m) {r : Rail} :
    m.HasRail vl r ↔ n.HasRail vl r := by
  simp only [HasRail, h.busbarSections_eq]

namespace Run

variable {s t : Session}

theorem extended_createSwitch (h : Extended X S C n s.network) {kind : SwitchKind} {id : String}
    {a b : Node} {isOpen : Bool} (hok : createSwitch vl kind id a b isOpen false s = .ok () t) :
    ∃ x : Switch, x.unnamed = baySwitch vl kind a b isOpen ∧
      Extended X (insert x S) C n t.network := by
  simp only [createSwitch, bind_eq_ok, edit_eq_ok, emit_eq_ok] at hok
  obtain ⟨given, _, ⟨k, hk, rfl⟩, rfl⟩ := hok
  exact ⟨_, rfl, h.createSwitch hk⟩

theorem extended_createDisconnectors (h : Extended X S C n s.network) {naming : NamingStrategy}
    {fork : Node} {base target : String} {rails : List Rail}
    (hok : createDisconnectors naming vl fork base target rails s = .ok () t) :
    ∃ xs : List Switch,
      xs.map (·.unnamed) =
        rails.map (fun r => baySwitch vl .disconnector fork r.node (r.id != target)) ∧
      Extended X ({x | x ∈ xs} ∪ S) C n t.network := by
  -- Each disconnector joins the switches besides before the rest is created.
  induction rails generalizing S s with
  | nil =>
    cases hok
    refine ⟨[], rfl, ?_⟩
    simpa using h
  | cons r rest ih =>
    simp only [createDisconnectors, bind_eq_ok] at hok
    obtain ⟨_, u, hfirst, hrun⟩ := hok
    obtain ⟨x, hx, hu⟩ := extended_createSwitch h hfirst
    obtain ⟨xs, hxs, ht⟩ := ih hu hrun
    refine ⟨x :: xs, by rw [List.map_cons, hx, hxs, List.map_cons], ?_⟩
    have hset : ({y | y ∈ x :: xs} ∪ S : Set Switch) = {y | y ∈ xs} ∪ insert x S := by
      ext y
      simp only [Set.mem_union, Set.mem_ofPred_eq, List.mem_cons, Set.mem_insert_iff]
      grind
    rw [hset]
    exact ht

theorem extended_createBay {bays : List LaidBay} (h : Extended X (laid bays) C n s.network)
    {p : BayPlan} {naming : NamingStrategy} {base : String}
    (hok : createBay naming p.voltageLevel p.nodes base p.target p.rails s = .ok () t) :
    ∃ b : LaidBay, b.toBayPlan = p ∧ Extended X (laid (bays ++ [b])) C n t.network := by
  simp only [createBay, bind_eq_ok] at hok
  obtain ⟨_, u, hfirst, hrun⟩ := hok
  obtain ⟨x, hx, hu⟩ := extended_createSwitch h hfirst
  obtain ⟨xs, hxs, ht⟩ := extended_createDisconnectors hu hrun
  refine ⟨⟨p, x, xs, hx, hxs⟩, rfl, ?_⟩
  have hset : laid (bays ++ [⟨p, x, xs, hx, hxs⟩]) = {y | y ∈ xs} ∪ insert x (laid bays) := by
    ext y
    simp only [laid, LaidBay.switches, List.mem_append, List.mem_singleton, Set.mem_union,
      Set.mem_ofPred_eq, Set.mem_insert_iff]
    constructor
    · rintro ⟨b, hb | rfl, hy⟩
      · exact Or.inr (Or.inr ⟨b, hb, hy⟩)
      · rcases List.mem_cons.mp hy with rfl | hy
        · exact Or.inr (Or.inl rfl)
        · exact Or.inl hy
    · rintro (hy | rfl | ⟨b, hb, hy⟩)
      · exact ⟨_, Or.inr rfl, List.mem_cons_of_mem _ hy⟩
      · exact ⟨_, Or.inr rfl, List.mem_cons_self⟩
      · exact ⟨b, Or.inl hb, hy⟩
  rw [hset]
  exact ht

end Run

end Switchyard
