import Switchyard.Proofs.Unfailing

namespace Switchyard

open Std Network Run

variable {K : ObjectKind → Prop} {n : Network} {s t : Session} {naming : NamingStrategy}
  {vl base : String} {rail : Rail} {node : Node}

namespace Coupling

theorem hasRail_of_mem_sectionsOf (h : n.Coherent False) {i : Int32} {x : Rail × Int32}
    (hx : x ∈ sectionsOf n vl i) : n.HasRail vl x.1 := by
  obtain ⟨b, hb, hposition⟩ := List.mem_filterMap.mp hx
  obtain ⟨p, -, rfl⟩ := Option.map_eq_some_iff.mp hposition
  exact h.hasRail_of_parallel hb

theorem rewires_connectSide (hK : K .switch) {position : Option BusbarPosition}
    {leftOut : Option OuterBusbar} :
    (connectSide naming vl base node rail position leftOut).Rewires K s := by
  cases position with
  | none =>
    exact (rewires_createDisconnectors hK _).bind fun _ _ =>
      (makes_emit _).bind fun _ _ => makes_pure 0
  | some p =>
    exact Makes.network_bind <| (rewires_createDisconnectors hK _).bind fun _ _ => makes_pure _

/-- A side can be connected from a node where no busbar section is. -/
theorem sure_connectSide (hs : s.network.Coherent False) (hr : s.network.HasRail vl rail)
    (hnode : ∀ r, s.network.HasRail vl r → node ≠ r.node) {position : Option BusbarPosition}
    {leftOut : Option OuterBusbar} :
    (connectSide naming vl base node rail position leftOut).Sure s := by
  have hw := hr.wiring hs
  cases position with
  | none =>
    have hone : ∀ r ∈ [rail], node ≠ r.node := by simpa using hnode rail hr
    exact (sure_createDisconnectors hs hw hone).bind fun _ _ _ =>
      Fails.emit_bind (fails_pure 0)
  | some p =>
    refine Fails.network_bind ?_
    have hkept : ∀ sections : List (Rail × Int32),
        sections ⊆ sectionsOf s.network vl p.sectionIndex →
        ∀ r ∈ sections.map (·.1), node ≠ r.node := by
      intro sections hsub r hin
      obtain ⟨x, hx, rfl⟩ := List.mem_map.mp hin
      exact hnode x.1 (hasRail_of_mem_sectionsOf hs (hsub hx))
    refine (sure_createDisconnectors hs hw (hkept _ ?_)).bind fun _ _ _ => fails_pure _
    cases leftOut with
    | none => exact fun _ hx => hx
    | some outer => exact List.filter_subset_self _

/-- Two busbar sections of a voltage level can be coupled where there is room for the two
nodes of the breaker. -/
theorem sure_coupleSections (hs : s.network.Coherent False) {rail1 rail2 : Rail}
    (h1 : s.network.HasRail vl rail1) (h2 : s.network.HasRail vl rail2)
    (hroom : s.network.Room vl 2) {given : Option String} :
    (coupleSections naming given vl rail1 rail2).Sure s := by
  obtain ⟨w, hw⟩ := h1.wiring hs
  have hnew : ∀ r, s.network.HasRail vl r → w.nextNode ≠ r.node ∧ w.nextNode + 1 ≠ r.node :=
    fun r hr => ⟨hs.ne_rail_of_unplaced (hroom.unplaced_nextNode hw) hr,
      hs.ne_rail_of_unplaced (hroom.unplaced (i := 1) (by decide) hw) hr⟩
  refine (sure_nextNode hw).bind fun node u hnode => ?_
  obtain ⟨w', hw', rfl, rfl⟩ := nextNode_eq_ok.mp hnode
  cases hw.symm.trans hw'
  refine (sure_createSwitch ⟨w, hw⟩ (by simp)).bind fun _ t ht => Fails.network_bind ?_
  have hmade : (createSwitch vl .breaker (naming.breaker
      (given.getD (naming.couplingBase vl rail1.id rail2.id))) w.nextNode (w.nextNode + 1) false
      false).Rewires (· = .switch) s := makes_createSwitch rfl
  obtain ⟨ht, hfit⟩ := hmade.refitted hs ht
  refine (sure_connectSide ht (hfit.hasRail_iff.mpr h1) fun r hr => ?_).bind fun count1 v hv => ?_
  · exact (hnew r (hfit.hasRail_iff.mp hr)).1
  obtain ⟨hv, hfit'⟩ := (rewires_connectSide (K := (· = .switch)) rfl).refitted ht hv
  have hrails : ∀ r, v.network.HasRail vl r ↔ s.network.HasRail vl r := fun r =>
    hfit'.hasRail_iff.trans hfit.hasRail_iff
  refine (sure_connectSide hv ((hrails rail2).mpr h2) fun r hr => ?_).bind fun count2 _ _ => ?_
  · exact (hnew r ((hrails r).mp hr)).2
  · exact Fails.ite (fun _ => fails_emit _) fun _ => fails_pure ()

/-- Once both junctions are found in one voltage level, at one level of detail,
nothing can fail. -/
theorem spares_steps (c : Coupling) (hs : s.network.Coherent False)
    (hroom : s.network.RoomAt c.id1 2) (naming : NamingStrategy) : (c.steps naming).Spares s := by
  refine (spares_junction c.id1).bind fun j1 u hfind1 => ?_
  obtain ⟨h1, rfl⟩ := junction_eq_ok.mp hfind1
  refine (spares_junction c.id2).bind fun j2 u hfind2 => ?_
  obtain ⟨h2, rfl⟩ := junction_eq_ok.mp hfind2
  refine Fails.check_bind rfl fun _ => Fails.check_bind rfl fun hvl => ?_
  have hvl : j1.voltageLevel = j2.voltageLevel := not_not.mp hvl
  rcases hs.junction_cases h1 with ⟨vl1, rfl, hone⟩ | ⟨b1, hone, rfl⟩ <;>
    rcases hs.junction_cases h2 with ⟨vl2, rfl, htwo⟩ | ⟨b2, htwo, rfl⟩
  · cases hvl
    exact (sure_createBusSwitch hone htwo).fails.bind fun _ _ _ => fails_emit _
  · exact (fails_throw rfl).bind fun _ _ hr => by cases hr
  · exact (fails_throw rfl).bind fun _ _ hr => by cases hr
  · have hrail1 : s.network.HasRail b1.voltageLevel ⟨c.id1, b1.node⟩ := ⟨b1, hone, rfl, rfl⟩
    have hrail2 : s.network.HasRail b1.voltageLevel ⟨c.id2, b2.node⟩ := ⟨b2, htwo, hvl.symm, rfl⟩
    exact (sure_coupleSections hs hrail1 hrail2 (hroom _ h1)).fails.bind fun _ _ _ => fails_emit _

end Coupling

end Switchyard
