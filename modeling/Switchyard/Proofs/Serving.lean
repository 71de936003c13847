import Switchyard.Proofs.BayPruning
import Switchyard.Proofs.LineSteps

namespace Switchyard

open Std Network

/-- The voltage level and the node of a terminal at a node. -/
def Terminal.place? (t : Terminal) : Option (String × Node) :=
  t.node?.map (t.voltageLevel, ·)

def LaidBay.place (b : LaidBay) : String × Node :=
  (b.voltageLevel, b.nodes.equipment)

/-- The terminals at nodes have a bay each, in order, and the bays do not touch
each other. -/
structure Network.Serves (n : Network) (bays : List LaidBay) (ts : List Terminal) : Prop where
  places : ts.filterMap (·.place?) = bays.map (·.place)
  fits : ∀ b ∈ bays, b.Fits n
  apart : bays.Pairwise fun b c => b.Apart c.toBayPlan

namespace Network.Serves

variable {n : Network} {bays : List LaidBay} {ts : List Terminal} {vl bus : String} {node : Node}

theorem nil (n : Network) : n.Serves [] [] :=
  ⟨rfl, by simp, .nil⟩

/-- A bay apart from those there are serves one more terminal, at its node. -/
theorem concat_node (h : n.Serves bays ts) {b : LaidBay} (hb : b.Fits n)
    (hapart : ∀ c ∈ bays, c.Apart b.toBayPlan) :
    n.Serves (bays ++ [b]) (ts ++ [.atNode b.voltageLevel b.nodes.equipment]) where
  places := by
    rw [List.filterMap_append, List.map_append, h.places]
    rfl
  fits := by simpa [or_imp, forall_and] using ⟨h.fits, hb⟩
  apart := List.pairwise_append.mpr ⟨h.apart, List.pairwise_singleton _ b, by simpa using hapart⟩

theorem concat_bus (h : n.Serves bays ts) (vl bus : String) :
    n.Serves bays (ts ++ [.atBus vl bus]) where
  places := by
    rw [List.filterMap_append, h.places]
    exact List.append_nil _
  fits := h.fits
  apart := h.apart

theorem eq_nil (h : n.Serves bays []) : bays = [] :=
  List.map_eq_nil_iff.mp h.places.symm

theorem atBus (h : n.Serves bays (.atBus vl bus :: ts)) : n.Serves bays ts :=
  ⟨h.places, h.fits, h.apart⟩

theorem atNode (h : n.Serves bays (.atNode vl node :: ts)) :
    ∃ b rest, bays = b :: rest ∧ b.voltageLevel = vl ∧ b.nodes.equipment = node ∧
      (∀ c ∈ rest, b.Apart c.toBayPlan) ∧ n.Serves rest ts := by
  have hplaces : (vl, node) :: ts.filterMap (·.place?) = bays.map (·.place) := h.places
  cases bays with
  | nil => cases hplaces
  | cons b rest =>
    obtain ⟨hfirst, hrest⟩ := List.cons.inj hplaces
    obtain ⟨hapart, hrests⟩ := List.pairwise_cons.mp h.apart
    exact ⟨b, rest, rfl, (congrArg Prod.fst hfirst).symm, (congrArg Prod.snd hfirst).symm, hapart,
      hrest, fun c hc => h.fits c (List.mem_cons_of_mem b hc), hrests⟩

theorem terminal_mem (h : n.Serves bays ts) {b : LaidBay} (hb : b ∈ bays) :
    .atNode b.voltageLevel b.nodes.equipment ∈ ts := by
  have hplace : b.place ∈ ts.filterMap (·.place?) := h.places ▸ List.mem_map_of_mem hb
  obtain ⟨⟨vl, connection⟩, ht, hp⟩ := List.mem_filterMap.mp hplace
  cases connection with
  | bus bus => cases hp
  | node node =>
    cases hp
    exact ht

theorem seats (h : n.Serves bays ts) {t : Terminal} (ht : t ∈ ts) : n.Seats t := by
  induction ts generalizing bays with
  | nil => cases ht
  | cons x rest ih =>
    obtain ⟨vl, connection⟩ := x
    cases connection with
    | bus bus =>
      rcases List.mem_cons.mp ht with rfl | ht
      · exact n.seats_atBus vl bus
      · exact ih h.atBus ht
    | node node =>
      obtain ⟨b, more, rfl, rfl, rfl, -, hmore⟩ := h.atNode
      rcases List.mem_cons.mp ht with rfl | ht
      · obtain ⟨w, hw, hnew, -⟩ := (h.fits b List.mem_cons_self).wired
        refine seats_of_not_placed fun w' hw' => ?_
        rw [hw] at hw'
        cases hw'
        exact hnew
      · exact ih hmore ht

end Network.Serves

/-- The bays of two lines at a rail, on the four nodes from `first` on. -/
def Network.twoBays (n : Network) (vl : String) (rail : Rail) (first : Node) : List BayPlan :=
  [n.bayPlan vl rail ⟨first, first + 1⟩, n.bayPlan vl rail ⟨first + 3, first + 2⟩]

namespace Network

variable {n : Network} {vl : String} {rail : Rail}

/-- The nodes of the two bays are four, also where the numbers start again at 0. -/
theorem apart_twoBays (n : Network) (vl : String) (rail : Rail) (first : Node) :
    (n.twoBays vl rail first).Pairwise BayPlan.Apart := by
  simp only [twoBays, List.pairwise_cons, List.mem_singleton, forall_eq, List.not_mem_nil,
    false_imp_iff, implies_true, List.Pairwise.nil, and_true]
  intro _
  simp only [bayPlan]
  refine ⟨?_, ?_, ?_, ?_⟩ <;> grind

theorem Coherent.railed_twoBays (h : n.Coherent False) (hr : n.HasRail vl rail) (first : Node) :
    ∀ p ∈ n.twoBays vl rail first, p.Railed n := by
  simpa [twoBays] using ⟨h.railed_bayPlan hr _, h.railed_bayPlan hr _⟩

/-- Two bays on the next four nodes serve both ends, where there is room for them. -/
theorem Coherent.serves_twoBays (h : n.Coherent False) (hr : n.HasRail vl rail) {w : Wiring}
    (hw : n.inside? vl = some (.nodeBreaker w)) (hroom : n.Room vl 4) {bays : List LaidBay}
    (hplans : bays.map (·.toBayPlan) = n.twoBays vl rail w.nextNode) :
    n.Serves bays [.atNode vl w.nextNode, .atNode vl (w.nextNode + 3)] := by
  have hnew : ∀ i < 4, n.Unplaced vl (w.nextNode + .ofNat i) := fun i hi => hroom.unplaced hi hw
  have hfits1 : (n.bayPlan vl rail ⟨w.nextNode, w.nextNode + 1⟩).Fits n :=
    h.fits_bayPlan hr (by simp) (by simpa using hnew 0) (hnew 1 (by decide))
  have hfits2 : (n.bayPlan vl rail ⟨w.nextNode + 3, w.nextNode + 2⟩).Fits n :=
    h.fits_bayPlan hr (by simp) (hnew 3 (by decide)) (hnew 2 (by decide))
  have hapart : (bays.map (·.toBayPlan)).Pairwise BayPlan.Apart :=
    hplans ▸ n.apart_twoBays vl rail w.nextNode
  obtain ⟨b1, rest, rfl, hb1, hrest⟩ := List.map_eq_cons_iff.mp hplans
  obtain ⟨b2, _, rfl, hb2, hnil⟩ := List.map_eq_cons_iff.mp hrest
  cases List.map_eq_nil_iff.mp hnil
  refine ⟨?_, ?_, List.pairwise_map.mp hapart⟩
  · simp only [List.map_cons, LaidBay.place, hb1, hb2]
    rfl
  · simpa [hb1, hb2] using ⟨hfits1, hfits2⟩

end Network

namespace Run

variable {X : Set String} {C : Set Connectable} {n : Network} {s t : Session}
  {bays : List LaidBay}

theorem extended_pruneBays {ts : List Terminal} (h : Extended X (laid bays) C n s.network)
    (hX : ∀ b ∈ bays, b.voltageLevel ∉ X) (hserves : n.Serves bays ts) {connectable : String}
    {u : Unit} (hok : pruneBays connectable ts s = .ok u t) : Extended X ∅ C n t.network := by
  induction ts generalizing bays s with
  | nil =>
    cases hserves.eq_nil
    cases hok
    rwa [laid_nil] at h
  | cons x rest ih =>
    obtain ⟨vl, connection⟩ := x
    cases connection with
    | bus bus => exact ih h hX hserves.atBus hok
    | node node =>
      obtain ⟨b, more, rfl, rfl, rfl, hapart, hmore⟩ := hserves.atNode
      simp only [pruneBays, Terminal.node?, bind_eq_ok] at hok
      obtain ⟨_, v, hbay, hrun⟩ := hok
      have hall : ∀ c ∈ b :: more, c.voltageLevel ∉ X ∧ c.Fits n := fun c hc =>
        ⟨hX c hc, hserves.fits c hc⟩
      have hv := extended_pruneBay h hall hapart hbay
      exact ih hv (fun c hc => hX c (List.mem_cons_of_mem b hc)) hmore hrun

theorem extended_pruneLeft {left : List (String × Terminal)}
    (h : Extended X (laid bays) C n s.network) (hX : ∀ b ∈ bays, b.voltageLevel ∉ X)
    (hserves : n.Serves bays (left.map (·.2))) {u : Unit} (hok : pruneLeft left s = .ok u t) :
    Extended X ∅ C n t.network := by
  induction left generalizing bays s with
  | nil =>
    cases hserves.eq_nil
    cases hok
    rwa [laid_nil] at h
  | cons x rest ih =>
    obtain ⟨line, vl, connection⟩ := x
    cases connection with
    | bus bus => exact ih h hX hserves.atBus hok
    | node node =>
      obtain ⟨b, more, rfl, rfl, rfl, hapart, hmore⟩ := hserves.atNode
      obtain ⟨v, hbay, hrun⟩ := pruneLeft_node_eq_ok.mp hok
      have hall : ∀ c ∈ b :: more, c.voltageLevel ∉ X ∧ c.Fits n := fun c hc =>
        ⟨hX c hc, hserves.fits c hc⟩
      have hv := extended_pruneBay h hall hapart hbay
      exact ih hv (fun c hc => hX c (List.mem_cons_of_mem b hc)) hmore hrun

theorem extended_createTwoBays (h : Extended X ∅ ∅ n s.network) {vl : String} {rail : Rail}
    (hvl : vl ∉ X) {w : Wiring} (hw : n.inside? vl = some (.nodeBreaker w))
    {naming : NamingStrategy} {base1 base2 : String} {ends : Halves Terminal}
    (hok : createTwoBays naming vl rail base1 base2 s = .ok ends t) :
    ends = ⟨.atNode vl w.nextNode, .atNode vl (w.nextNode + 3)⟩ ∧
      ∃ bays : List LaidBay, bays.map (·.toBayPlan) = n.twoBays vl rail w.nextNode ∧
        Extended X (laid bays) ∅ n t.network := by
  simp only [createTwoBays, bind_eq_ok, nextNode_eq_ok, pure_eq_ok] at hok
  obtain ⟨first, _, ⟨w', hw', rfl, rfl⟩, _, u, hok1, _, v, hok2, rfl, rfl⟩ := hok
  have hnone : Extended X (laid []) ∅ n s.network := by rwa [laid_nil]
  obtain ⟨b1, hb1, hu⟩ := extended_createLineBay hnone hok1
  obtain ⟨b2, hb2, hv⟩ := extended_createLineBay hu hok2
  rw [h.nextNode_eq hvl hw hw'] at hb1 hb2 ⊢
  exact ⟨rfl, [b1, b2], by rw [twoBays, ← hb1, ← hb2]; rfl, hv⟩

end Run

end Switchyard
