import Switchyard.Proofs.DueCopies
import Switchyard.Proofs.Inapplicable
import Switchyard.Proofs.Success

namespace Switchyard

open Std Network Run

variable {c : FeederConnection} {n m : Network} {s t : Session} {naming : NamingStrategy}
  {vl base : String} {w u : Wiring} {targets : List (Rail × BusbarPosition)}
  {done rest : List Int32} {l : List (Node × Node)} {xs : List Switch} {i : Int32} {count : Nat}

theorem Network.Coherent.refers_rail (hn : n.Coherent False) {rail : Rail}
    (hr : n.HasRail vl rail) : n.Refers vl rail.node := by
  obtain ⟨w, hw⟩ := hr.wiring hn
  exact ⟨w, hw, Or.inl (mem_iff_exists_getElem?.mpr ⟨_, hn.terminal_rail hr hw⟩)⟩

theorem Network.Coherent.refers_joined {a b : Node}
    (hw : n.inside? vl = some (.nodeBreaker w)) (h : w.Joined a b) : n.Refers vl b := by
  obtain ⟨e, he, -, hends⟩ := h
  obtain ⟨k, hk⟩ := mem_values_iff.mp he
  exact ⟨w, hw, Or.inr ⟨k, e, hk, hends.touches_iff.mpr (Or.inr rfl)⟩⟩

theorem Run.busbarSection_ok (hs : s.network.Coherent False) {id : String} {b : BusbarSection}
    (hb : s.network.busbarSections[id]? = some b) : busbarSection id s = .ok b s := by
  have hindex := (hs.index_iff id _).mpr (.connectable (c := .busbarSection b) hb)
  have hkind : s.network.kind? id = some .busbarSection := by
    rw [kind?, hindex]
    rfl
  simp only [busbarSection, bind_eq_ok, network_eq_ok]
  refine ⟨_, s, ⟨rfl, rfl⟩, ?_⟩
  rw [hkind]
  dsimp only
  rw [hb]
  rfl

namespace FeederConnection

section

variable (h : c.Stage n vl w targets done l xs s.network)
  (hu : s.network.inside? vl = some (.nodeBreaker u))

include h hu

theorem Stage.refers_copied :
    (∀ p ∈ (c.foundAt n vl s.network u i).toList, s.network.Refers vl p.1) ∧
      ∀ r ∈ targetsAt targets i, s.network.Refers vl r.node := by
  have hm := h.extended.coherent
  refine ⟨fun p hp => ?_, fun r hr => ?_⟩
  · obtain ⟨b, q, -, -, -, hrail, hfound, -⟩ :=
      h.of_foundAt (ExtTreeMap.mem_toList_iff_getElem?_eq_some.mp hp)
    obtain ⟨-, -, -, hjoined, -⟩ := Wiring.railSwitches_spec (hm.not_plain_rail hrail hu) hfound
    exact Coherent.refers_joined hu hjoined
  · obtain ⟨t, ht, rfl⟩ := List.mem_map.mp hr
    exact hm.refers_rail (h.extended.hasRail_iff.mpr (h.hasRail (List.mem_of_mem_filter ht)))

end

/-- The section indices are connected one after the other. -/
theorem stage_connectSections (h : c.Stage n vl w targets done l xs s.network)
    (hrest : (done ++ rest).Nodup)
    (hok : c.connectSections naming vl base (n.placedSections vl) targets rest s = .ok count t) :
    ∃ l' ys, c.Stage n vl w targets (done ++ rest) l' ys t.network := by
  induction rest generalizing done l xs s count with
  | nil =>
    obtain ⟨-, rfl⟩ := pure_eq_ok.mp hok
    exact ⟨l, xs, by simpa using h⟩
  | cons i rest ih =>
    simp only [connectSections, bind_eq_ok, network_eq_ok, lookUp_eq_ok, pure_eq_ok,
      wiring_eq_ok_iff] at hok
    obtain ⟨_, _, ⟨rfl, rfl⟩, u, _, ⟨hu, rfl⟩, _, v, hfirst, _, _, hok, -, rfl⟩ := hok
    obtain ⟨ys, hys⟩ := copied_connectTargets h.extended.coherent hfirst
    have hi : i ∉ done := fun hi =>
      (List.nodup_append.mp hrest).2.2 i hi i List.mem_cons_self rfl
    have hnext := h.next hu hi hys
    rw [List.append_cons] at hrest ⊢
    exact ih hnext hrest hok

/-- The sections can all be connected if no coupling is copied to one of its own ends. -/
theorem sure_connectSections (h : c.Stage n vl w targets done l xs s.network)
    (hrest : (done ++ rest).Nodup) (hids : ∀ t ∈ targets, t.1.id ∈ c.busbarSections)
    (hloops : ¬c.Loops n) :
    (c.connectSections naming vl base (n.placedSections vl) targets rest).Sure s := by
  induction rest generalizing done l xs s with
  | nil => exact fails_pure 0
  | cons i rest ih =>
    have hi : i ∉ done := fun hi =>
      (List.nodup_append.mp hrest).2.2 i hi i List.mem_cons_self rfl
    obtain ⟨u, hu, -⟩ := h.wired
    obtain ⟨hcopies, htargets⟩ := h.refers_copied hu (i := i)
    refine Fails.network_bind ((sure_of_ok (lookUp_eq_ok.mpr ⟨wiring_eq_ok_iff.mpr hu, rfl⟩)).bind
      fun u' v hv => ?_)
    obtain ⟨hu', rfl⟩ := lookUp_eq_ok.mp hv
    cases (wiring_eq_ok_iff.mpr hu).symm.trans hu'
    refine (sure_connectTargets h.extended.coherent hcopies htargets fun p hp r hr => ?_).bind
      fun made v hfirst => ?_
    · obtain ⟨t, ht, rfl⟩ := List.mem_map.mp hr
      obtain ⟨ht, hti⟩ := List.mem_filter.mp ht
      exact h.ne_of_copied hu ht hi (by simpa using hti) hloops (hids t ht)
        (ExtTreeMap.mem_toList_iff_getElem?_eq_some.mp hp)
    · obtain ⟨ys, hys⟩ := copied_connectTargets h.extended.coherent hfirst
      have hnext := h.next hu hi hys
      rw [List.append_cons] at hrest
      exact Fails.bind (ih hnext hrest) fun _ _ _ => fails_pure _

/-- The busbar sections asked for pass the checks, as targets in the voltage level. -/
def Aims (c : FeederConnection) (n : Network) (vl : String)
    (targets : List (Rail × BusbarPosition)) : Prop :=
  ∃ b rest, (c.busbarSections.mapM fun id => n.busbarSections[id]?) = some (b :: rest) ∧
    b.voltageLevel = vl ∧ placeTargets vl (b :: rest) = .ok targets

/-- All checks of the connection pass. -/
def Admitted (c : FeederConnection) (n : Network) : Prop :=
  c.impact n = .hasImpact ∧ ∀ id ∈ c.connectables, (n.connectable? id).isSome = true

instance (c : FeederConnection) (n : Network) : Decidable (c.Admitted n) :=
  inferInstanceAs (Decidable (_ ∧ _))

theorem Admitted.aims (h : c.Admitted n) : ∃ vl targets, c.Aims n vl targets := by
  obtain ⟨himpact, -⟩ := h
  unfold impact at himpact
  split at himpact
  next b rest hfound =>
    cases hp : placeTargets b.voltageLevel (b :: rest) with
    | error f => simp [hp, Impact.ofBool, Except.isOk, Except.toBool] at himpact
    | ok targets => exact ⟨b.voltageLevel, targets, b, rest, hfound, rfl, hp⟩
  next => simp [Impact.ofBool] at himpact

theorem placeTargets_eq_ok {found : List BusbarSection} (h : placeTargets vl found = .ok targets) :
    (∀ b ∈ found, b.voltageLevel = vl) ∧
      (found.mapM fun b => b.position.map (b.rail, ·)) = some targets := by
  unfold placeTargets at h
  split at h
  · cases h
  next hall =>
    refine ⟨by simpa using hall, ?_⟩
    split at h
    next placed hplaced =>
      cases h
      exact hplaced
    next => cases h

theorem places_of_mapM (hn : n.Coherent False) {ids : List String} {found : List BusbarSection}
    (hfound : (ids.mapM fun id => n.busbarSections[id]?) = some found)
    (hvl : ∀ b ∈ found, b.voltageLevel = vl)
    (hplaced : (found.mapM fun b => b.position.map (b.rail, ·)) = some targets) :
    Places n vl targets ∧ targets.map (·.1.id) = ids := by
  induction ids generalizing found targets with
  | nil =>
    simp only [List.mapM_nil, Option.pure_def, Option.some.injEq] at hfound
    subst hfound
    simp only [List.mapM_nil, Option.pure_def, Option.some.injEq] at hplaced
    subst hplaced
    exact ⟨by simp [Places], rfl⟩
  | cons id rest ih =>
    simp only [List.mapM_cons, Option.bind_eq_bind, Option.bind_eq_some_iff, Option.pure_def,
      Option.some.injEq] at hfound
    obtain ⟨b, hb, more, hmore, rfl⟩ := hfound
    simp only [List.mapM_cons, Option.bind_eq_bind, Option.bind_eq_some_iff, Option.pure_def,
      Option.some.injEq, Option.map_eq_some_iff] at hplaced
    obtain ⟨_, ⟨q, hq, rfl⟩, later, hlater, rfl⟩ := hplaced
    obtain ⟨hbvl, hmorevl⟩ := List.forall_mem_cons.mp hvl
    obtain ⟨hplaces, hids⟩ := ih hmore hmorevl hlater
    have hid : b.id = id := hn.connectable_id id (.busbarSection b) hb
    refine ⟨List.forall_mem_cons.mpr ⟨⟨b, ?_, rfl⟩, hplaces⟩, ?_⟩
    · exact hn.mem_placedSections_iff.mpr ⟨hid ▸ hb, hbvl, hq⟩
    · rw [List.map_cons, hids]
      exact congrArg (· :: rest) hid

namespace Aims

theorem places (hn : n.Coherent False) (h : c.Aims n vl targets) :
    Places n vl targets ∧ targets.map (·.1.id) = c.busbarSections := by
  obtain ⟨b, rest, hfound, -, hplace⟩ := h
  obtain ⟨hvl, hplaced⟩ := placeTargets_eq_ok hplace
  exact places_of_mapM hn hfound hvl hplaced

theorem nodup (hn : n.Coherent False) (h : c.Aims n vl targets)
    (hnodup : c.busbarSections.Nodup) : (targets.map (·.1)).Nodup := by
  have hids : (targets.map (·.1)).map (·.id) = c.busbarSections := by
    rw [List.map_map]
    exact (h.places hn).2
  rw [← hids] at hnodup
  exact hnodup.of_map _

theorem unique (h : c.Aims n vl targets) {vl' : String} {targets' : List (Rail × BusbarPosition)}
    (h' : c.Aims m vl' targets') (hsame : m.busbarSections = n.busbarSections) :
    vl' = vl ∧ targets' = targets := by
  obtain ⟨b, rest, hfound, rfl, hplace⟩ := h
  obtain ⟨b', rest', hfound', rfl, hplace'⟩ := h'
  rw [hsame, hfound] at hfound'
  cases hfound'
  rw [hplace] at hplace'
  cases hplace'
  exact ⟨rfl, rfl⟩

theorem stage (hn : n.Coherent False) (h : c.Aims n vl targets) :
    ∃ w, c.Stage n vl w targets [] [] [] n := by
  obtain ⟨hplaces, -⟩ := h.places hn
  obtain ⟨b, rest, hfound, rfl, -⟩ := h
  have hb : ∃ id : String, n.busbarSections[id]? = some b := by
    cases hids : c.busbarSections with
    | nil => simp [hids] at hfound
    | cons id ids =>
      simp only [hids, List.mapM_cons, Option.bind_eq_bind, Option.bind_eq_some_iff,
        Option.pure_def, Option.some.injEq] at hfound
      obtain ⟨b', hb', _, -, hcons⟩ := hfound
      cases hcons
      exact ⟨id, hb'⟩
  obtain ⟨id, hb⟩ := hb
  obtain ⟨w, hw⟩ := (hn.hasRail hb).wiring hn
  exact ⟨w, { Copied.refl hn b.voltageLevel, Connecting.nil with inside := hw, places := hplaces }⟩

end Aims

/-- The section indices of the targets, in order. -/
def indices (targets : List (Rail × BusbarPosition)) : List Int32 :=
  (ExtTreeSet.ofList (targets.map (·.2.sectionIndex))).toList

theorem nodup_indices (targets : List (Rail × BusbarPosition)) : (indices targets).Nodup :=
  nodup_toList _

theorem mem_indices {t : Rail × BusbarPosition} (ht : t ∈ targets) :
    t.2.sectionIndex ∈ indices targets := by
  rw [indices, ExtTreeSet.mem_toList, ExtTreeSet.mem_ofList, List.contains_iff_mem]
  exact List.mem_map_of_mem ht

theorem findSections_ok (hs : s.network.Coherent False) {ids : List String}
    {found : List BusbarSection}
    (h : (ids.mapM fun id => s.network.busbarSections[id]?) = some found) :
    findSections ids s = .ok found s := by
  induction ids generalizing found with
  | nil =>
    simp only [List.mapM_nil, Option.pure_def, Option.some.injEq] at h
    exact h ▸ rfl
  | cons id rest ih =>
    simp only [List.mapM_cons, Option.bind_eq_bind, Option.bind_eq_some_iff, Option.pure_def,
      Option.some.injEq] at h
    obtain ⟨b, hb, more, hmore, rfl⟩ := h
    simp only [findSections, bind_eq_ok, pure_eq_ok]
    exact ⟨b, s, busbarSection_ok hs hb, more, s, ih hmore, rfl, rfl⟩

theorem checkConnectables_ok {ids : List String}
    (h : ∀ id ∈ ids, (n.connectable? id).isSome = true) : checkConnectables n ids s = .ok () s := by
  induction ids with
  | nil => rfl
  | cons id rest ih =>
    obtain ⟨hid, hrest⟩ := List.forall_mem_cons.mp h
    have hsome : (n.connectable? id).isNone = false := by simpa using hid
    rw [checkConnectables, hsome]
    exact ih hrest

/-- A success connects the section indices of the targets. -/
theorem stage_of_steps (hs : s.network.Coherent False) (hok : c.steps naming s = .ok () t) :
    ∃ vl w targets l xs, c.Aims s.network vl targets ∧
      c.Stage s.network vl w targets (indices targets) l xs t.network := by
  unfold steps at hok
  split at hok
  · exact (refuse_eq_ok.mp hok).elim
  next hsome =>
    simp only [bind_eq_ok, network_eq_ok] at hok
    obtain ⟨found, _, hfind, _, _, ⟨rfl, rfl⟩, _, u, hcheck, hok⟩ := hok
    obtain ⟨hfound, rfl⟩ := findSections_eq_ok hfind
    have hu : u.network = s.network :=
      ((makes_checkConnectables (A := fun _ => False) _).ok hs hcheck).eq_of_none
    cases found with
    | nil =>
      cases hids : c.busbarSections with
      | nil => simp [hids] at hsome
      | cons id ids => simp [hids, List.mapM_cons, Option.bind_eq_some_iff] at hfound
    | cons b rest =>
      dsimp only [List.head?_cons, Option.map_some, Option.getD_some] at hok
      cases hp : placeTargets b.voltageLevel (b :: rest) with
      | error f =>
        rw [hp] at hok
        exact (refuse_eq_ok.mp hok).elim
      | ok targets =>
        rw [hp] at hok
        simp only [bind_eq_ok, emit_eq_ok] at hok
        obtain ⟨count, v, hconnect, rfl⟩ := hok
        have haims : c.Aims s.network b.voltageLevel targets := ⟨b, rest, hfound, rfl, hp⟩
        obtain ⟨w, hstage⟩ := haims.stage hs
        rw [← hu] at hstage hconnect
        obtain ⟨l, xs, hend⟩ := stage_connectSections hstage (nodup_indices targets) hconnect
        rw [hu] at hend
        exact ⟨b.voltageLevel, w, targets, l, xs, haims, hend⟩

/-- What passes the checks succeeds if no coupling is copied to one of its own ends. -/
theorem sure_steps (hs : s.network.Coherent False) (h : c.Admitted s.network)
    (hloops : ¬c.Loops s.network) : (c.steps naming).Sure s := by
  obtain ⟨vl, targets, haims⟩ := h.aims
  obtain ⟨-, hids⟩ := haims.places hs
  obtain ⟨w, hstage⟩ := haims.stage hs
  obtain ⟨b, rest, hfound, rfl, hplace⟩ := haims
  have hsome : ¬c.busbarSections.isEmpty = true := fun hempty => by
    rw [List.isEmpty_iff.mp hempty] at hfound
    cases hfound
  have htargets : ∀ t ∈ targets, t.1.id ∈ c.busbarSections := fun t ht =>
    hids ▸ List.mem_map_of_mem ht
  unfold steps
  rw [if_neg hsome]
  refine (sure_of_ok (findSections_ok hs hfound)).bind fun found u hfind => ?_
  cases (findSections_ok hs hfound).symm.trans hfind
  refine Fails.network_bind ((sure_of_ok (checkConnectables_ok h.2)).bind fun _ u hcheck => ?_)
  cases (checkConnectables_ok h.2).symm.trans hcheck
  dsimp only [List.head?_cons, Option.map_some, Option.getD_some]
  rw [hplace]
  exact (sure_connectSections hstage (nodup_indices targets) htargets hloops).bind
    fun _ _ _ => fails_emit _

end FeederConnection

end Switchyard
