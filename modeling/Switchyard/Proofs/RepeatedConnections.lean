import Switchyard.Modification
import Switchyard.Proofs.FeederConnections

namespace Switchyard

open Std Network

/-- Both switches join the same two nodes. -/
def Switch.Parallel (x y : Switch) : Prop :=
  y.voltageLevel = x.voltageLevel ∧ y.edge.Between x.node1 x.node2

variable {c : FeederConnection} {n m k : Network} {S : Set Switch} {C : Set Connectable}
  {vl : String} {w u : Wiring} {targets : List (Rail × BusbarPosition)} {done : List Int32}
  {l l' : List (Node × Node)} {xs ys : List Switch} {x y : Switch} {i : Int32} {f : Node}

namespace Network

/-- The switch is in its voltage level. -/
def HasSwitch (n : Network) (x : Switch) : Prop :=
  (n.wiring x.voltageLevel).toOption.bind (·.switches[x.id]?) = some x

instance (n : Network) (x : Switch) : Decidable (n.HasSwitch x) :=
  inferInstanceAs (Decidable (_ = _))

theorem hasSwitch_iff : n.HasSwitch x ↔
    ∃ w, n.inside? x.voltageLevel = some (.nodeBreaker w) ∧ w.switches[x.id]? = some x := by
  simp only [← wiring_eq_ok_iff, HasSwitch]
  cases n.wiring x.voltageLevel <;> simp [Except.toOption]

/-- The switch came with the second network. -/
def Created (n m : Network) (x : Switch) : Prop :=
  m.HasSwitch x ∧ ¬n.HasSwitch x

instance (n m : Network) (x : Switch) : Decidable (n.Created m x) :=
  inferInstanceAs (Decidable (_ ∧ _))

theorem Extended.hasSwitch (h : Extended ∅ S C n m) (hx : m.HasSwitch x) :
    n.HasSwitch x ∨ x ∈ S := by
  obtain ⟨u, hu, hx⟩ := hasSwitch_iff.mp hx
  obtain ⟨w, hw, -, -, hcarries⟩ := h.toWired.wiring_old (Set.notMem_empty _) hu
  by_cases hs : ∃ s ∈ switchesAt S x.voltageLevel, s.id = x.id
  · obtain ⟨s, hs, hid⟩ := hs
    have hnew := (hcarries.switch_new s hs).1
    rw [hid, hx] at hnew
    exact Or.inr (Option.some.inj hnew ▸ hs.1)
  · rw [hcarries.switch_old x.id fun s hin hid => hs ⟨s, hin, hid⟩] at hx
    exact Or.inl (hasSwitch_iff.mpr ⟨w, hw, hx⟩)

end Network

namespace FeederConnection

/-- The second network is the first one with the copies that were asked for. -/
structure Connects (c : FeederConnection) (n m : Network) : Prop where
  /-- Each switch that is created starts at a busbar section to be connected, and a copy is
  due there, or asked for if the far end holds a terminal. -/
  warranted : ∀ x, n.Created m x → ∃ b q w, b.id ∈ c.busbarSections ∧
    (b, q) ∈ n.placedSections x.voltageLevel ∧
    n.inside? x.voltageLevel = some (.nodeBreaker w) ∧ x.node1 = b.node ∧
    (w.Plain x.node2 → c.Due n x.voltageLevel w q.sectionIndex x.node2) ∧
    (¬w.Plain x.node2 → c.Asked n w x.node2)
  /-- Where a copy is due at a busbar section to be connected, the section is met. -/
  complete : (∀ id ∈ c.connectables, id ∉ n.busbarSections) → ∀ vl b q w f,
    b.id ∈ c.busbarSections → (b, q) ∈ n.placedSections vl →
    n.inside? vl = some (.nodeBreaker w) → c.Due n vl w q.sectionIndex f →
    ∃ u, m.inside? vl = some (.nodeBreaker u) ∧ u.Beside f ⟨b.id, .one⟩

/-- A copy may repeat a connection: its far end holds a terminal, or it passes for the other
end of a coupling. -/
def MayRepeat (c : FeederConnection) (n : Network) (x : Switch) : Prop :=
  ∃ w, n.inside? x.voltageLevel = some (.nodeBreaker w) ∧
    (¬w.Plain x.node2 ∨ c.Overlooks n w x.node1 x.node2)

namespace Stage

/-- A copy that is parallel to another switch was overlooked. -/
theorem mayRepeat_of_parallel (h : c.Stage n vl w targets done l xs m)
    (hnodup : (targets.map (·.1)).Nodup) (hx : x ∈ xs) (hy : m.HasSwitch y) (hne : y ≠ x)
    (hparallel : x.Parallel y) : c.MayRepeat n x := by
  have hn := h.extended.base
  have hlevel : x.voltageLevel = vl := h.level x hx
  refine ⟨w, hlevel ▸ h.inside, or_iff_not_imp_left.mpr fun hplain => ?_⟩
  have hplain : w.Plain x.node2 := not_not.mp hplain
  obtain ⟨t, ht, -, hnode, hdue, -⟩ := h.origin _ (h.mem_of_switch hx)
  obtain ⟨hvl, hends⟩ := hparallel
  have hnode : x.node1 = t.1.node := hnode
  rcases h.extended.hasSwitch hy with hold | hcopy
  · obtain ⟨w', hw', hy⟩ := hasSwitch_iff.mp hold
    rw [hvl, hlevel, h.inside] at hw'
    cases hw'
    obtain ⟨k, -, hk⟩ := (hn.sound vl w h.inside).edge_of_switch hy
    refine (hdue hplain).2 ⟨y.edge, mem_values_iff.mpr ⟨k, hk⟩, x.node2, x.node1, .refl,
      hends.symm, ?_⟩
    rw [hnode]
    exact hn.terminal_rail (h.hasRail ht) h.inside
  · obtain ⟨u, hu, hwide⟩ := h.wired
    rcases hends with ⟨h1, h2⟩ | ⟨h1, -⟩
    · have hdistinct : (xs.map (·.ends)).Nodup := h.ends ▸ h.nodup hnodup
      exact absurd (List.inj_on_of_nodup_map hdistinct hcopy hx (Prod.ext h1 h2)) hne
    · have h1 : y.node1 = x.node2 := h1
      exact absurd (h1 ▸ hplain) (hwide.held y hcopy)

theorem due_before (h : c.Stage n vl w targets done l xs m)
    (hu : m.inside? vl = some (.nodeBreaker u)) (hdue : c.Due m vl u i f) : c.Due n vl w i f := by
  have hwide := h.widened hu
  have hplain : w.Plain f := hwide.plain_iff.mp hdue.plain
  obtain ⟨b, q, hb, hq, hjoined⟩ := hdue.joined
  rw [h.placedSections_eq] at hb
  rcases hwide.joined_iff.mp hjoined with hold | ⟨s, hs, ⟨h1, h2⟩ | ⟨h1, -⟩⟩
  · exact ⟨hplain, (h.wants_iff hu hplain).mp hdue.wants, b, q, hb, hq, hold⟩
  · -- The section is joined by a copy, which was due at the section itself.
    obtain ⟨t, ht, -, hnode, hcopied, -⟩ := h.origin _ (h.mem_of_switch hs)
    obtain ⟨d, hd, hrail⟩ := h.places t ht
    have h1 : s.node1 = b.node := h1
    obtain rfl : s.node2 = f := h2
    have hsame := placed_unique h.extended.base hd hb (by
      rw [← h1]
      exact (congrArg Rail.node hrail).trans hnode.symm)
    have hi : t.2.sectionIndex = i := by rw [hsame.2, hq]
    exact hi ▸ (hcopied hplain).1
  · have h1 : s.node1 = f := h1
    exact absurd (h1 ▸ hplain) (hwide.held s hs)

/-- Once all section indices are connected, a target is met wherever a copy was due at it. -/
theorem beside_of_due (h : c.Stage n vl w targets (indices targets) l xs m)
    (hu : m.inside? vl = some (.nodeBreaker u))
    (hreq : ∀ id ∈ c.connectables, id ∉ n.busbarSections) {t : Rail × BusbarPosition}
    (ht : t ∈ targets) (hdue : c.Due n vl w t.2.sectionIndex f) : u.Beside f ⟨t.1.id, .one⟩ := by
  refine ((h.widened hu).beside_iff hdue.plain).mpr ?_
  refine (h.served hreq t ht (mem_indices ht) f hdue).imp_right ?_
  rintro ⟨p, hp, hnode, hinner⟩
  rw [← h.ends] at hp
  obtain ⟨s, hs, rfl⟩ := List.mem_map.mp hp
  have hnode : s.node1 = t.1.node := hnode
  refine ⟨s, hs, hinner, ?_⟩
  rw [hnode]
  exact h.extended.base.terminal_rail (h.hasRail ht) h.inside

theorem connects (h : c.Stage n vl w targets (indices targets) l xs m)
    (haims : c.Aims n vl targets) : c.Connects n m where
  warranted := by
    intro x hx
    have hin := (h.extended.hasSwitch hx.1).resolve_left hx.2
    obtain ⟨t, ht, -, hnode, hplain, hheld⟩ := h.origin _ (h.mem_of_switch hin)
    obtain ⟨b, hb, hrail⟩ := h.places t ht
    rw [h.level x hin]
    refine ⟨b, t.2, w, ?_, hb, h.inside, hnode.trans (congrArg Rail.node hrail).symm,
      fun hf => (hplain hf).1, hheld⟩
    rw [← (haims.places h.extended.base).2]
    exact List.mem_map.mpr ⟨t, ht, (congrArg Rail.id hrail).symm⟩
  complete := by
    intro hreq level b q w' f hid hb hw hdue
    have hn := h.extended.base
    rw [← (haims.places hn).2] at hid
    obtain ⟨t, ht, hid⟩ := List.mem_map.mp hid
    obtain ⟨d, hd, hrail⟩ := h.places t ht
    have hid : b.id = d.id := hid.symm.trans (congrArg Rail.id hrail).symm
    obtain ⟨hstored, rfl, hq⟩ := hn.mem_placedSections_iff.mp hb
    obtain ⟨hstored', rfl, hq'⟩ := hn.mem_placedSections_iff.mp hd
    rw [hid, hstored'] at hstored
    obtain rfl := Option.some.inj hstored
    obtain rfl := Option.some.inj (hq.symm.trans hq')
    cases h.inside.symm.trans hw
    obtain ⟨u, hu, -⟩ := h.wired
    refine ⟨u, hu, ?_⟩
    have hmet := h.beside_of_due hu hreq ht hdue
    rwa [← hrail] at hmet

/-- A copy that comes only when the connection is made again was overlooked. -/
theorem mayRepeat_of_again (h : c.Stage n vl w targets (indices targets) l xs m)
    (h' : c.Stage m vl u targets done l' ys k)
    (hreq : ∀ id ∈ c.connectables, id ∉ n.busbarSections) (hx : x ∈ ys) : c.MayRepeat m x := by
  refine ⟨u, h'.level x hx ▸ h'.inside, or_iff_not_imp_left.mpr fun hplain => ?_⟩
  obtain ⟨t, ht, -, -, hdue, -⟩ := h'.origin _ (h'.mem_of_switch hx)
  obtain ⟨hdue, hoverlooks⟩ := hdue (not_not.mp hplain)
  exact hoverlooks (h.beside_of_due h'.inside hreq ht (h.due_before h'.inside hdue))

end Stage

end FeederConnection

namespace Modification

/-- In every network that can come about, a connection of feeders that passes its checks
succeeds, unless it may copy a coupling to one of its own ends, and then makes the copies asked
for. Of the switches that it creates for distinct busbar sections only those that it overlooks
are parallel to others, and only such ones are created when it is applied again, if no busbar
section is asked for as a feeder. -/
theorem parallel_only_if_overlooked (id : String) (serial : Nat) (ops : List Operation)
    {c : FeederConnection} {naming : NamingStrategy} {strict : Bool}
    (h : c.Admitted ((empty id serial).after ops)) :
    (¬c.Loops ((empty id serial).after ops) →
      ((feederConnection c).apply ((empty id serial).after ops) naming strict).Succeeds) ∧
    ∀ m, ((feederConnection c).apply ((empty id serial).after ops) naming strict).network = m →
      ((feederConnection c).apply ((empty id serial).after ops) naming strict).Succeeds →
      c.Connects ((empty id serial).after ops) m ∧
      (c.busbarSections.Nodup → ∀ x y, ((empty id serial).after ops).Created m x →
        m.HasSwitch y → y ≠ x → x.Parallel y → c.MayRepeat ((empty id serial).after ops) x) ∧
      ((∀ x ∈ c.connectables, x ∉ ((empty id serial).after ops).busbarSections) →
        ((feederConnection c).apply m naming strict).Succeeds →
        ∀ x, m.Created ((feederConnection c).apply m naming strict).network x →
          c.MayRepeat m x) := by
  have hn := (coherent_empty False id serial).after ops False.elim
  generalize (empty id serial).after ops = n at h hn ⊢
  refine ⟨fun hloops => ?_, ?_⟩
  · by_contra hfail
    have htraced : Run.Builds False (fun _ => False) (c.steps naming) ⟨n, []⟩ :=
      c.builds_steps naming fun _ h => h
    obtain ⟨f, t, hr, -⟩ := htraced.error_of_not_succeeds hn hfail
    exact FeederConnection.sure_steps (s := ⟨n, []⟩) hn h hloops f t hr
  · rintro _ rfl hsucceeds
    obtain ⟨t, ht, hend⟩ := Run.ok_of_succeeds hsucceeds
    have hend : ((feederConnection c).apply n naming strict).network = t.network := hend
    rw [hend]
    obtain ⟨vl, w, targets, l, xs, haims, hstage⟩ :=
      FeederConnection.stage_of_steps (s := ⟨n, []⟩) hn ht
    refine ⟨hstage.connects haims, fun hnodup x y hx hy hne hparallel => ?_,
      fun hreq hagain x hx => ?_⟩
    · have hin := (hstage.extended.hasSwitch hx.1).resolve_left hx.2
      exact hstage.mayRepeat_of_parallel (haims.nodup hn hnodup) hin hy hne hparallel
    · obtain ⟨t', ht', hend'⟩ := Run.ok_of_succeeds hagain
      have hend' : ((feederConnection c).apply t.network naming strict).network = t'.network :=
        hend'
      rw [hend'] at hx
      obtain ⟨vl', w', targets', l', ys, haims', hstage'⟩ :=
        FeederConnection.stage_of_steps (s := ⟨t.network, []⟩) hstage.extended.coherent ht'
      obtain ⟨rfl, rfl⟩ := haims.unique haims' hstage.extended.busbarSections_eq
      have hin := (hstage'.extended.hasSwitch hx.1).resolve_left hx.2
      exact hstage.mayRepeat_of_again hstage' hreq hin

/-- Two busbars, with a load at one of them. -/
def loadedBusbar : List Operation :=
  [.change (.addVoltageLevel { id := "V" }),
    .change (.addBusbarSection
      { voltageLevel := "V", id := "B1", node := 0, position := some ⟨1, 1⟩ }),
    .change (.addBusbarSection
      { voltageLevel := "V", id := "B2", node := 1, position := some ⟨2, 1⟩ }),
    .change (.addConnectable (.injection
      { owner := 0, id := "LD", terminal := some (.atNode "V" 3) })),
    .change (.addSwitch { voltageLevel := "V", id := "D", node1 := 0, node2 := 2 }),
    .change (.addSwitch { voltageLevel := "V", id := "K", node1 := 2, node2 := 3 })]

/-- Two busbars, with a disconnector from each of them to the load. -/
def heldBusbars : List Operation :=
  [.change (.addVoltageLevel { id := "V" }),
    .change (.addBusbarSection
      { voltageLevel := "V", id := "B1", node := 0, position := some ⟨1, 1⟩ }),
    .change (.addBusbarSection
      { voltageLevel := "V", id := "B2", node := 1, position := some ⟨2, 1⟩ }),
    .change (.addConnectable (.injection
      { owner := 0, id := "LD", terminal := some (.atNode "V" 2) })),
    .change (.addSwitch { voltageLevel := "V", id := "D1", node1 := 0, node2 := 2 }),
    .change (.addSwitch { voltageLevel := "V", id := "D2", node1 := 1, node2 := 2 })]

def connectLoad (busbarSection : String) : FeederConnection where
  connectables := ["LD"]
  busbarSections := [busbarSection]

theorem parallel_only_if_overlooked_loadedBusbar :
    ((feederConnection (connectLoad "B2")).apply ((empty "N" 0).after loadedBusbar) .standard
        true).Succeeds ∧
      ∀ m, ((feederConnection (connectLoad "B2")).apply ((empty "N" 0).after loadedBusbar)
          .standard true).network = m →
        (connectLoad "B2").Connects ((empty "N" 0).after loadedBusbar) m ∧
        (∀ x y, ((empty "N" 0).after loadedBusbar).Created m x → m.HasSwitch y → y ≠ x →
          x.Parallel y → (connectLoad "B2").MayRepeat ((empty "N" 0).after loadedBusbar) x) ∧
        ∀ x, m.Created ((feederConnection (connectLoad "B2")).apply m .standard true).network x →
          (connectLoad "B2").MayRepeat m x := by
  have hadmit : (connectLoad "B2").Admitted ((empty "N" 0).after loadedBusbar) := by
    decide +kernel
  have hloops : ¬(connectLoad "B2").Loops ((empty "N" 0).after loadedBusbar) := by
    rintro ⟨hon, -⟩
    cases hon
  have hagain : ((feederConnection (connectLoad "B2")).apply
      ((feederConnection (connectLoad "B2")).apply ((empty "N" 0).after loadedBusbar) .standard
        true).network .standard true).Succeeds := by
    decide +kernel
  obtain ⟨hsure, hrepeats⟩ :=
    @parallel_only_if_overlooked "N" 0 loadedBusbar (connectLoad "B2") .standard true hadmit
  refine ⟨hsure hloops, ?_⟩
  rintro _ rfl
  obtain ⟨hconnects, honce, htwice⟩ := hrepeats _ rfl (hsure hloops)
  exact ⟨hconnects, honce (by decide), htwice (by decide +kernel) hagain⟩

/-- A disconnector is copied next to the one that is there, and once more the next time. -/
theorem parallel_heldBusbars :
    (connectLoad "B1").Admitted ((empty "N" 0).after heldBusbars) ∧
      ∃ x y z, ((empty "N" 0).after heldBusbars).HasSwitch y ∧ x.Parallel y ∧
        ((empty "N" 0).after heldBusbars).Created
          ((feederConnection (connectLoad "B1")).apply ((empty "N" 0).after heldBusbars) .standard
            true).network x ∧
        ((feederConnection (connectLoad "B1")).apply ((empty "N" 0).after heldBusbars) .standard
          true).network.Created
          ((feederConnection (connectLoad "B1")).apply
            ((feederConnection (connectLoad "B1")).apply ((empty "N" 0).after heldBusbars)
              .standard true).network .standard true).network z := by
  refine ⟨by decide +kernel,
    ⟨"LD_DISCONNECTOR_0_2", none, "V", .disconnector, 0, 2, true, false, false⟩,
    ⟨"D1", none, "V", .disconnector, 0, 2, false, false, false⟩,
    ⟨"LD_DISCONNECTOR_0_2#0", none, "V", .disconnector, 0, 2, true, false, false⟩,
    by decide +kernel, ⟨rfl, Or.inl ⟨rfl, rfl⟩⟩, by decide +kernel, by decide +kernel⟩

end Modification

end Switchyard
