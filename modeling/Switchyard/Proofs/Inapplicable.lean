import Switchyard.Proofs.Extensions
import Switchyard.Proofs.Refusals

namespace Switchyard

open Std Network

variable {α β : Type} {s : Session} {n : Network}

theorem Impact.ofBool_eq_cannotBeApplied {applicable : Bool} :
    ofBool applicable = .cannotBeApplied ↔ applicable = false := by
  cases applicable <;> decide

namespace Run

/-- A fault ends the run, which leaves the network as it was. -/
def Refuses (r : Run α) (s : Session) : Prop :=
  ∃ f t, r s = .error f t ∧ t.network = s.network

variable {x : Run α} {k : α → Run β}

theorem refuses_refuse (f : Fault) : (refuse f : Run α).Refuses s :=
  ⟨f, _, rfl, rfl⟩

theorem Refuses.bind (h : x.Refuses s) : (x >>= k).Refuses s := by
  obtain ⟨f, t, hr, ht⟩ := h
  exact ⟨f, t, by rw [bind_apply, hr], ht⟩

/-- A run that leaves no trace when it fails, before one that is sure to fail. -/
theorem Spares.refuses_bind (hx : x.Spares s)
    (hk : ∀ a t, x s = .ok a t → t.network = s.network ∧ (k a).Refuses t) :
    (x >>= k).Refuses s := by
  cases hr : x s with
  | error f t => exact Refuses.bind ⟨f, t, hr, hx f t hr⟩
  | ok a t =>
    obtain ⟨ht, f, u, hu, hnetwork⟩ := hk a t hr
    exact ⟨f, u, by rw [bind_apply, hr]; exact hu, hnetwork.trans ht⟩

theorem Makes.refuses_bind (hx : Makes (fun _ => False) x s) (hs : s.network.Coherent False)
    (hk : ∀ a t, x s = .ok a t → t.network = s.network → (k a).Refuses t) :
    (x >>= k).Refuses s := by
  refine (hx.spares hs).refuses_bind fun a t hr => ?_
  have ht := (hx.ok hs hr).eq_of_none
  exact ⟨ht, hk a t hr ht⟩

theorem Refuses.network_bind {k : Network → Run β} (h : (k s.network).Refuses s) :
    (network >>= k).Refuses s :=
  h

theorem Refuses.emit_bind {e : Event} {k : Unit → Run β} (h : (k ()).Refuses (s.tell e)) :
    (emit e >>= k).Refuses s :=
  h

theorem Refuses.check_bind {c : Prop} [Decidable c] {f : Fault} {k : Unit → Run β}
    (h : ¬c → (k ()).Refuses s) : (if c then refuse f >>= k else k ()).Refuses s := by
  split
  · exact (refuses_refuse f).bind
  next hc => exact h hc

theorem refuses_line_bind {id : String} {k : Branch → Run β}
    (h : ∀ b, s.network.line? id = some b → (k b).Refuses s) : (line id >>= k).Refuses s := by
  refine (spares_line id).refuses_bind fun b t hr => ?_
  obtain ⟨hb, rfl⟩ := line_eq_ok.mp hr
  exact ⟨rfl, h b hb⟩

theorem refuses_junction_bind {id : String} {k : Junction → Run β}
    (h : ∀ j, s.network.junction id = .ok j → (k j).Refuses s) :
    (junction id >>= k).Refuses s := by
  refine (spares_junction id).refuses_bind fun j t hr => ?_
  obtain ⟨hj, rfl⟩ := junction_eq_ok.mp hr
  exact ⟨rfl, h j hj⟩

theorem refuses_checkPercent_bind {percent : Float} {k : Unit → Run β}
    (h : percentInRange percent = true → (k ()).Refuses s) :
    (checkPercent percent >>= k).Refuses s := by
  cases hp : percentInRange percent with
  | false =>
    refine Refuses.bind ?_
    rw [checkPercent, hp]
    exact refuses_refuse _
  | true =>
    refine (spares_checkPercent percent).refuses_bind fun _ t hr => ?_
    obtain rfl := checkPercent_eq_ok hr
    exact ⟨rfl, h hp⟩

/-- In the strict mode a fault of the steps is raised. -/
theorem settle_strict (f : Fault) (s : Session) :
    ∃ t, settle true f s = .error f t ∧ t.network = s.network := by
  unfold settle
  split
  · exact ⟨s, rfl, rfl⟩
  · simp only [bind_apply, get_apply]
    split
    · exact ⟨_, rfl, rfl⟩
    · exact ⟨_, rfl, rfl⟩

theorem Refuses.finish {steps : Run Unit} (hx : steps.Refuses s) :
    (steps.finish true).Refuses s := by
  obtain ⟨f, t, hr, ht⟩ := hx
  obtain ⟨u, hu, hnetwork⟩ := settle_strict f t
  refine ⟨f, u, ?_, hnetwork.trans ht⟩
  simp only [Run.finish, hr, hu]

theorem Refuses.outcome {steps : Run Unit} (h : steps.Refuses ⟨n, []⟩) :
    (∃ f, (steps.outcome n).fault = some f) ∧ (steps.outcome n).network = n := by
  obtain ⟨f, t, hr, ht⟩ := h
  simp only [Run.outcome, hr]
  exact ⟨⟨f, rfl⟩, ht⟩

end Run

open Run

theorem Network.Coherent.junction_id (h : n.Coherent False) {id : String} {j : Junction}
    (hj : n.junction id = .ok j) : j.id = id := by
  rcases h.junction_cases hj with ⟨vl, rfl, -⟩ | ⟨b, -, rfl⟩
  · rfl
  · rfl

/-- A bay can be made at a bus, and at a busbar section in an order that is not negative. -/
def FeederBay.Admissible (n : Network) (bay : FeederBay) : Bool :=
  match n.junction bay.target with
  | .ok (.bus ..) => true
  | .ok (.busbarSection ..) => bay.order.any (0 ≤ ·)
  | .error _ => false

theorem FeederBays.refuses_findSides {given : List (Side × FeederBay)} {g : Side × FeederBay}
    (hg : g ∈ given) (hno : ¬g.2.Admissible s.network) : (findSides given).Refuses s := by
  induction given generalizing s with
  | nil => simp at hg
  | cons first rest ih =>
    obtain ⟨side, bay⟩ := first
    refine refuses_junction_bind fun j hj => ?_
    have hlater : bay.Admissible s.network → g ∈ rest := fun hfirst =>
      (List.mem_cons.mp hg).resolve_left fun he => hno (he ▸ hfirst)
    cases j with
    | bus x vl =>
      have hin : g ∈ rest := hlater (by simp only [FeederBay.Admissible, hj])
      cases bay.order with
      | none => exact (ih hin hno).bind
      | some order => exact Refuses.emit_bind (ih (s := s.tell _) hin hno).bind
    | busbarSection x vl node =>
      cases ho : bay.order with
      | none => exact (refuses_refuse _).bind
      | some order =>
        refine Refuses.check_bind fun hlow => (ih (hlater ?_) hno).bind
        simpa [FeederBay.Admissible, hj, ho] using hlow

theorem FeederBays.refuses_steps {c : FeederBays} (hlen : c.bays.length = c.draft.sides.length)
    (h : c.impact s.network = .cannotBeApplied) (naming : NamingStrategy) :
    (c.steps naming).Refuses s := by
  have hall : c.bays.all (·.Admissible s.network) = false := Impact.ofBool_eq_cannotBeApplied.mp h
  obtain ⟨bay, hbay, hno⟩ := List.all_eq_false.mp hall
  have hgiven : bay ∈ (c.draft.sides.zip c.bays).map Prod.snd := by
    rwa [List.map_snd_zip hlen.le]
  obtain ⟨g, hg, rfl⟩ := List.mem_map.mp hgiven
  exact (refuses_findSides hg hno).bind

theorem FeederRemoval.refuses_steps {c : FeederRemoval}
    (h : c.impact s.network = .cannotBeApplied) : (c.steps true).Refuses s := by
  rw [impact, Impact.ofBool_eq_cannotBeApplied] at h
  refine Refuses.network_bind ?_
  cases hc : s.network.connectable? c.connectable with
  | none => exact ⟨_, _, rfl, rfl⟩
  | some found =>
    have hbusbar : found.isBusbarSection = true := by simpa [hc] using h
    dsimp only
    rw [if_pos hbusbar]
    exact ⟨_, _, rfl, rfl⟩

theorem Coupling.refuses_steps {c : Coupling} (hs : s.network.Coherent False)
    (h : c.impact s.network = .cannotBeApplied) (naming : NamingStrategy) :
    (c.steps naming).Refuses s := by
  rw [impact, Impact.ofBool_eq_cannotBeApplied] at h
  refine refuses_junction_bind fun j1 h1 => refuses_junction_bind fun j2 h2 => ?_
  refine Refuses.check_bind fun hids => Refuses.check_bind fun hvl => ?_
  simp [h1, h2, hs.junction_id h1, hs.junction_id h2, hids, not_not.mp hvl] at h

theorem Run.refuses_busbarSection {id : String}
    (h : ∀ x vl node, s.network.junction id ≠ .ok (.busbarSection x vl node)) :
    (busbarSection id).Refuses s := by
  refine Refuses.network_bind ?_
  split
  · exact refuses_refuse _
  next hkind =>
    cases hb : s.network.busbarSections[id]? with
    | none => exact refuses_refuse _
    | some b =>
      exact absurd (by simp only [Network.junction, hkind, hb]) (h b.id b.voltageLevel b.node)
  · exact refuses_refuse _

theorem SectionInsertion.refuses_steps {c : SectionInsertion}
    (h : c.impact s.network = .cannotBeApplied) (naming : NamingStrategy) :
    (c.steps naming).Refuses s := by
  rw [impact, Impact.ofBool_eq_cannotBeApplied] at h
  unfold steps
  refine Refuses.check_bind fun _ => Refuses.check_bind fun _ => Refuses.bind ?_
  exact refuses_busbarSection fun x vl node hj => by simp [hj] at h

theorem LineTap.refuses_steps {c : LineTap} (h : c.impact s.network = .cannotBeApplied)
    (naming : NamingStrategy) : (c.steps naming).Refuses s := by
  rw [impact, Impact.ofBool_eq_cannotBeApplied] at h
  refine refuses_line_bind fun line hline => refuses_checkPercent_bind fun hpercent =>
    refuses_junction_bind fun j hj => ?_
  cases hnew : c.newSubstation with
  | error f => exact refuses_refuse f
  | ok substation =>
    refine Refuses.network_bind (Refuses.check_bind fun howner => ?_)
    simp [hline, hpercent, hj, hnew, not_not.mp howner, Except.isOk, Except.toBool] at h

theorem LineCut.refuses_steps {c : LineCut} (h : c.impact s.network = .cannotBeApplied)
    (naming : NamingStrategy) : (c.steps naming).Refuses s := by
  rw [impact, Impact.ofBool_eq_cannotBeApplied] at h
  refine refuses_line_bind fun line hline => refuses_checkPercent_bind fun hpercent =>
    refuses_junction_bind fun j hj => ?_
  simp [hline, hpercent, hj, Except.isOk, Except.toBool] at h

theorem TapRemoval.refuses_steps {c : TapRemoval} (h : c.impact s.network = .cannotBeApplied) :
    c.steps.Refuses s := by
  rw [impact, Impact.ofBool_eq_cannotBeApplied] at h
  refine refuses_line_bind fun line1 h1 => refuses_line_bind fun line2 h2 =>
    refuses_line_bind fun tap htap => ?_
  have htee : teePoint? line1 line2 tap = none := by simpa [h1, h2, htap] using h
  rw [htee]
  exact refuses_refuse _

theorem LineMerge.refuses_steps {c : LineMerge} (h : c.impact s.network = .cannotBeApplied) :
    c.steps.Refuses s := by
  rw [impact, Impact.ofBool_eq_cannotBeApplied] at h
  refine refuses_line_bind fun line1 h1 => refuses_line_bind fun line2 h2 => ?_
  have hmeeting : meetingPoint? line1 line2 = none := by simpa [h1, h2] using h
  rw [hmeeting]
  exact refuses_refuse _

theorem TeeReplacement.refuses_steps {c : TeeReplacement}
    (h : c.impact s.network = .cannotBeApplied) (naming : NamingStrategy) :
    (c.steps naming).Refuses s := by
  rw [impact, Impact.ofBool_eq_cannotBeApplied] at h
  refine refuses_line_bind fun line1 h1 => refuses_line_bind fun line2 h2 =>
    refuses_line_bind fun tap htap => ?_
  simp only [h1, h2, htap] at h
  cases htee : teePoint? line1 line2 tap with
  | none => exact refuses_refuse _
  | some tee =>
    refine refuses_junction_bind fun j hj => Refuses.check_bind fun hvl => ?_
    simp [htee, hj, not_not.mp hvl] at h

theorem Grid.refuses_steps {g : Grid} (h : g.impact s.network = .cannotBeApplied)
    (naming : NamingStrategy) : (g.steps naming).Refuses s := by
  rw [impact, Impact.ofBool_eq_cannotBeApplied] at h
  unfold steps
  cases hcounts : g.checkCounts with
  | error f => exact refuses_refuse f
  | ok u =>
    refine Refuses.network_bind ?_
    cases hv : s.network.voltageLevels[g.voltageLevel]? with
    | none => exact refuses_refuse _
    | some v =>
      cases htopology : v.topology with
      | busBreaker l => simp [hcounts, hv, htopology, Except.isOk, Except.toBool] at h
      | nodeBreaker w =>
        have hkinds : g.checkSwitchKinds.isOk = false := by
          simpa [hcounts, hv, htopology, Except.isOk, Except.toBool] using h
        dsimp only
        rw [htopology]
        refine Refuses.bind (Refuses.network_bind (Refuses.check_bind fun _ => ?_))
        cases hcheck : g.checkSwitchKinds with
        | error f => exact refuses_refuse f
        | ok u => simp [hcheck, Except.isOk, Except.toBool] at hkinds

theorem FeederConnection.findSections_eq_ok {ids : List String} {l : List BusbarSection}
    {t : Session} (h : findSections ids s = .ok l t) :
    ids.mapM (fun id => s.network.busbarSections[id]?) = some l ∧ s = t := by
  induction ids generalizing l with
  | nil =>
    obtain ⟨rfl, rfl⟩ := pure_eq_ok.mp h
    exact ⟨rfl, rfl⟩
  | cons id rest ih =>
    simp only [findSections, bind_eq_ok, pure_eq_ok] at h
    obtain ⟨b, _, hhead, found, _, hrest, rfl, rfl⟩ := h
    obtain ⟨hb, rfl⟩ := busbarSection_eq_ok hhead
    obtain ⟨hfound, rfl⟩ := ih hrest
    exact ⟨by simp [List.mapM_cons, hb, hfound], rfl⟩

theorem FeederConnection.refuses_steps {c : FeederConnection} (hs : s.network.Coherent False)
    (h : c.impact s.network = .cannotBeApplied) (naming : NamingStrategy) :
    (c.steps naming).Refuses s := by
  rw [impact, Impact.ofBool_eq_cannotBeApplied] at h
  unfold steps
  refine Refuses.check_bind fun hsome => ?_
  refine Makes.refuses_bind (makes_findSections _) hs fun found t hfind _ => ?_
  obtain ⟨hfound, rfl⟩ := findSections_eq_ok hfind
  refine Refuses.network_bind (Makes.refuses_bind (makes_checkConnectables _) hs fun _ t _ _ => ?_)
  cases found with
  | nil =>
    cases hids : c.busbarSections with
    | nil => simp [hids] at hsome
    | cons id ids => simp [hids, List.mapM_cons, Option.bind_eq_some_iff] at hfound
  | cons b rest =>
    have hplace : (placeTargets b.voltageLevel (b :: rest)).isOk = false := by
      simpa [hfound] using h
    dsimp only [List.head?_cons, Option.map_some, Option.getD_some]
    cases hp : placeTargets b.voltageLevel (b :: rest) with
    | error f => exact refuses_refuse f
    | ok targets => simp [hp, Except.isOk, Except.toBool] at hplace

namespace Modification

/-- What the impact tells cannot be applied is refused before anything changes. -/
theorem refuses_run (hs : s.network.Coherent False) {r : Request} {m : Modification}
    (hbuild : r.build = .ok m) (h : m.impact s.network = .cannotBeApplied)
    (naming : NamingStrategy) : (m.run naming true).Refuses s := by
  cases m with
  | feederBays m => exact (m.refuses_steps (FeederBays.length_bays hbuild) h naming).finish
  | feederRemoval m => exact m.refuses_steps h
  | coupling m => exact (m.refuses_steps hs h naming).finish
  | sectionInsertion m => exact (m.refuses_steps h naming).finish
  | grid m => exact (m.refuses_steps h naming).finish
  | feederConnection m => exact (m.refuses_steps hs h naming).finish
  | lineTap m => exact (m.refuses_steps h naming).finish
  | lineCut m => exact (m.refuses_steps h naming).finish
  | tapRemoval m => exact (m.refuses_steps h).finish
  | lineMerge m => exact (m.refuses_steps h).finish
  | teeReplacement m => exact (m.refuses_steps h naming).finish

/-- In every network that can come about, a modification that cannot be applied
by its impact raises a fault and changes nothing. -/
theorem refused_of_cannotBeApplied (id : String) (serial : Nat) (ops : List Operation)
    {r : Request} {m : Modification} (hbuild : r.build = .ok m)
    (himpact : m.impact ((empty id serial).after ops) = .cannotBeApplied)
    (naming : NamingStrategy) :
    (∃ f, (m.apply ((empty id serial).after ops) naming true).fault = some f) ∧
      (m.apply ((empty id serial).after ops) naming true).network = (empty id serial).after ops :=
  (refuses_run (s := ⟨_, []⟩) ((coherent_empty False id serial).after ops False.elim) hbuild
    himpact naming).outcome

/-- A branch between two busbar sections, with an order at the first one only. -/
def unorderedBranch : FeederBays where
  draft := .branch { owner := 0, id := "K" }
  bays := [{ target := "B1", order := some 10 }, { target := "B3" }]
  force := false

theorem refused_of_cannotBeApplied_unorderedBranch :
    (feederBays unorderedBranch).impact ((empty "N" 0).after spannedLine) = .cannotBeApplied ∧
      (∃ f, ((feederBays unorderedBranch).apply ((empty "N" 0).after spannedLine) .standard
        true).fault = some f) ∧
      ((feederBays unorderedBranch).apply ((empty "N" 0).after spannedLine) .standard
        true).network = (empty "N" 0).after spannedLine :=
  have himpact : (feederBays unorderedBranch).impact ((empty "N" 0).after spannedLine) =
      .cannotBeApplied := by decide +kernel
  ⟨himpact, refused_of_cannotBeApplied "N" 0 spannedLine
    (r := .branchBays
      { draft := some { owner := 0, id := "K" }
        bay1 := unorderedBranch.bays[0]?
        bay2 := unorderedBranch.bays[1]? })
    rfl himpact .standard⟩

end Modification

end Switchyard
