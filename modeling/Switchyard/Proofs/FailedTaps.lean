import Switchyard.Proofs.LateConflicts
import Switchyard.Proofs.LineTaps

namespace Switchyard

open Std Network

variable {n m : Network} {vl id : String} {v : VoltageLevel} {s t : Session}

theorem VoltageLevelDraft.create_error {d : VoltageLevelDraft} {f : Fault}
    (hs : ∀ x, d.substation = some x → x ∈ n.substations) (h : d.create n = .error f m) :
    ∃ e, n.index[d.id]? = some e ∧ f = .idTaken n.id e.kind d.id := by
  rw [d.create_eq hs] at h
  split at h
  next => cases h
  next g k hclaim =>
    cases h
    exact (Edit.claimId_error hclaim).2

namespace Network

/-- The second network has a voltage level besides, with nothing inside. Ids that are
new are among those given. -/
structure Widened (n m : Network) (vl : String) (ids : List String) : Prop where
  coherent : m.Coherent False
  absent : vl ∉ n.voltageLevels
  inside : ∀ x, m.inside? x = if vl = x then some (.nodeBreaker {}) else n.inside? x
  keeps_iff : ∀ id c, m.Keeps id c ↔ n.Keeps id c
  index : ∀ id ∈ m.index, id ∈ n.index ∨ id ∈ ids

theorem Coherent.widened_create (h : n.Coherent False) {d : VoltageLevelDraft}
    (hkind : d.kind = .nodeBreaker) (hok : d.create n = .ok id m) : n.Widened m d.id [d.id] := by
  obtain ⟨hs, -, hid, rfl⟩ := VoltageLevelDraft.create_eq_ok.mp hok
  refine ⟨(h.withLevel hid rfl hs).coherent, fun hm => ?_, fun x => ?_, fun x c => ?_,
    fun x hm => ?_⟩
  · exact h.stores_of_index hid _ (.voltageLevel hm)
  · rw [inside?_withLevel, VoltageLevelDraft.voltageLevel, hkind]
    rfl
  · cases c <;> rfl
  · rcases ExtTreeMap.mem_insert.mp hm with he | hold
    · exact Or.inr (List.mem_singleton.mpr (LawfulEqCmp.eq_of_compare he).symm)
    · exact Or.inl hold

namespace Widened

variable {ids : List String} {c : Connectable}

theorem of_withSubstation {x : Substation} (h : (n.withSubstation x).Widened m vl ids) :
    n.Widened m vl (ids ++ [x.id]) where
  coherent := h.coherent
  absent := h.absent
  inside := h.inside
  keeps_iff := by
    intro id c
    rw [h.keeps_iff]
    cases c <;> rfl
  index := by
    intro id hm
    rcases h.index id hm with hold | hnew
    · rcases ExtTreeMap.mem_insert.mp hold with he | hold
      · exact Or.inr (by simp [LawfulEqCmp.eq_of_compare he])
      · exact Or.inl hold
    · exact Or.inr (List.mem_append_left _ hnew)

theorem free (h : n.Widened m vl ids) (node : Node) : m.Free (.atNode vl node) := by
  refine ⟨{}, ?_, ExtTreeMap.not_mem_empty⟩
  rw [h.inside]
  exact if_pos rfl

theorem stands (h : n.Widened m vl ids) {j : Junction} (hj : j.Stands n) : j.Stands m := by
  cases j with
  | bus x y =>
    obtain ⟨l, hl, hb⟩ := hj
    have hne : vl ≠ y := by
      rintro rfl
      refine h.absent (inside?_isSome_iff.mp ?_)
      rw [hl, Option.isSome_some]
    exact ⟨l, by rw [h.inside, if_neg hne, hl], hb⟩
  | busbarSection x y node =>
    obtain ⟨b, hb, hends⟩ := hj
    exact ⟨b, (h.keeps_iff x (.busbarSection b)).mpr hb, hends⟩

end Widened

theorem Coherent.mem_of_stands (h : n.Coherent False) {j : Junction} (hj : j.Stands n) :
    j.voltageLevel ∈ n.voltageLevels := by
  rw [← inside?_isSome_iff]
  cases j with
  | bus x y =>
    obtain ⟨l, hl, -⟩ := hj
    exact hl ▸ rfl
  | busbarSection x y node =>
    have hr : n.HasRail y ⟨x, node⟩ := hj
    obtain ⟨w, hw⟩ := hr.wiring h
    exact hw ▸ rfl

end Network

theorem Run.sure_addConnection {a b : Node}
    (hw : ∃ w, s.network.inside? vl = some (.nodeBreaker w)) (hne : a ≠ b) :
    (edit (Edit.addConnection vl a b)).Sure s := by
  obtain ⟨w, hw⟩ := hw
  have hok : ∃ k, Edit.addConnection vl a b s.network = .ok () k := by
    simp only [Edit.addConnection, bind_apply, Edit.wiring_of_inside hw, if_neg hne]
    exact ⟨_, rfl⟩
  obtain ⟨k, hok⟩ := hok
  exact sure_edit hok

theorem Run.rewires_addConnection {K : ObjectKind → Prop} (vl : String) (a b : Node) :
    (edit (Edit.addConnection vl a b)).Rewires K s :=
  makes_edit (c := .addConnection vl a b) (Edit.is_return rfl) trivial

namespace LineTap

variable {c : LineTap} {naming : NamingStrategy} {line : Branch} {substation : Option String}

theorem widened_createVoltageLevel (hs : s.network.Coherent False)
    (hok : c.createVoltageLevel line substation s = .ok () t) :
    s.network.Widened t.network c.voltageLevel (c.voltageLevel :: substation.toList) := by
  cases substation with
  | none =>
    simp only [createVoltageLevel, bind_eq_ok, Run.network_eq_ok, Run.edit_eq_ok,
      Run.emit_eq_ok] at hok
    obtain ⟨_, _, ⟨rfl, rfl⟩, _, _, ⟨k, hlevel, rfl⟩, rfl⟩ := hok
    exact hs.widened_create rfl hlevel
  | some id =>
    simp only [createVoltageLevel, bind_eq_ok, Run.network_eq_ok, Run.edit_eq_ok,
      Run.emit_eq_ok] at hok
    obtain ⟨_, _, ⟨j, hsubstation, rfl⟩, _, _, rfl, _, _, ⟨rfl, rfl⟩, _, _, ⟨k, hlevel, rfl⟩,
      rfl⟩ := hok
    obtain ⟨-, hnew, rfl⟩ := Substation.create_eq_ok.mp hsubstation
    exact ((hs.withSubstation hnew).coherent.widened_create rfl hlevel).of_withSubstation

/-- The voltage level is refused for its id. Only a substation may be left of that. -/
theorem fails_createVoltageLevel (hs : s.network.Coherent False)
    (hne : c.voltageLevel ∉ substation) :
    (c.createVoltageLevel line substation).Fails s fun f t =>
      t.network = s.network ∨ substation.isSome ∧
        ∃ e, s.network.index[c.voltageLevel]? = some e ∧
          f = .idTaken s.network.id e.kind c.voltageLevel := by
  cases substation with
  | none =>
    refine Run.Fails.network_bind (Run.Fails.bind ?_ fun _ _ _ => Run.fails_emit _)
    have hatomic : ∀ d : VoltageLevelDraft, d.create.Atomic False s.network := fun d =>
      (d.create_cases hs).imp_left fun ⟨m, hok, hm⟩ => ⟨_, m, hok, hm.coherent⟩
    exact (Run.spares_edit (hatomic _)).mono fun _ _ => Or.inl
  | some id =>
    have hatomic : ∀ x : Substation, x.create.Atomic False s.network := fun x =>
      (x.create_cases hs).imp_left fun ⟨m, hok, hm⟩ => ⟨_, m, hok, hm.coherent⟩
    refine (Run.spares_edit (hatomic _)).or_bind fun _ u hsubstation => ?_
    obtain ⟨k, hk, rfl⟩ := Run.edit_eq_ok.mp hsubstation
    obtain ⟨-, hnew, rfl⟩ := Substation.create_eq_ok.mp hk
    refine Run.Fails.emit_bind (Run.Fails.network_bind ?_)
    refine Run.Fails.bind (Run.fails_edit fun f m hrefused => ?_) fun _ _ _ => Run.fails_emit _
    obtain ⟨e, he, rfl⟩ := VoltageLevelDraft.create_error (by simp [withSubstation]) hrefused
    refine Or.inr ⟨rfl, e, ?_, rfl⟩
    have hindex : (s.network.index.insert id ⟨.substation, none⟩)[c.voltageLevel]? = some e := he
    have hne : id ≠ c.voltageLevel := fun h => hne (congrArg some h)
    rw [ExtTreeMap.getElem?_insert] at hindex
    simpa [hne] using hindex

/-- The id of the new voltage level can only be taken by the line. -/
theorem levelTaken_of_index (hn : n.Coherent False) (hline : n.line? c.line = some line)
    (hsub : c.newSubstation = .ok substation) (hsome : substation.isSome)
    (hid : c.voltageLevel ∈ n.index → c.voltageLevel ∈ [line.id]) {e : IndexEntry}
    (he : n.index[c.voltageLevel]? = some e) {network : String} :
    LateConflict n (.lineTap c) (.idTaken network e.kind c.voltageLevel) := by
  obtain ⟨hkept, hkind⟩ := line?_eq_some_iff.mp hline
  have hsame : c.voltageLevel = c.line := by
    rw [List.mem_singleton.mp (hid (mem_iff_exists_getElem?.mpr ⟨e, he⟩)), hn.line_id hline]
  have hcreate : c.createSubstation = true := by
    by_contra hnone
    rw [newSubstation, Bool.eq_false_iff.mpr hnone] at hsub
    cases hsub
    cases hsome
  have hentry : e = (Connectable.branch line).entry :=
    hn.entry_unique ((hn.index_iff _ e).mp he) (.connectable (hsame ▸ hkept))
  have hline : e.kind = .branch .line := by
    rw [hentry, ← hkind]
    rfl
  rw [hline]
  exact .levelTaken hsame hcreate

/-- A line to split, with room for its halves and their ids, where the voltage level
at which they end is there. -/
structure Splittable (c : LineTap) (line : Branch) (n : Network) : Prop where
  coherent : n.Coherent False
  keeps : n.Keeps line.id (.branch line)
  free : ∀ node, n.Free (.atNode c.voltageLevel node)
  apart : ∀ side, (line.terminal side).voltageLevel ≠ c.voltageLevel
  index : ∀ id ∈ [c.line1, c.line2, c.tap.id], id ∈ n.index → id = line.id
  nodup : [c.line1, c.line2, c.tap.id].Nodup

theorem splittable_createVoltageLevel (hs : s.network.Coherent False)
    (hline : s.network.Keeps line.id (.branch line))
    (hids : ∀ id ∈ [c.voltageLevel, c.line1, c.line2, c.tap.id] ++ substation.toList,
      id ∈ s.network.index → id ∈ [line.id])
    (hnodup : ([c.voltageLevel, c.line1, c.line2, c.tap.id] ++ substation.toList).Nodup)
    (hwide : s.network.Widened t.network c.voltageLevel (c.voltageLevel :: substation.toList)) :
    c.Splittable line t.network where
  coherent := hwide.coherent
  keeps := (hwide.keeps_iff _ _).mpr hline
  free := hwide.free
  apart := by
    intro side he
    obtain ⟨_, hside⟩ := line.mem_terminals side
    have hmem := hs.mem_voltageLevels hline hside
    exact hwide.absent (he ▸ hmem)
  index := by
    intro id hid hm
    have hin : id ∈ [c.voltageLevel, c.line1, c.line2, c.tap.id] ++ substation.toList :=
      List.mem_append_left _ (List.mem_cons_of_mem _ hid)
    rcases hwide.index id hm with hold | hnew
    · exact List.mem_singleton.mp (hids id hin hold)
    · obtain ⟨hfour, -, hapart⟩ := List.nodup_append.mp hnodup
      rcases List.mem_cons.mp hnew with rfl | hnew
      · exact absurd hid (List.nodup_cons.mp hfour).1
      · exact absurd rfl (hapart id (List.mem_cons_of_mem _ hid) id hnew)
  nodup := (List.nodup_cons.mp (List.nodup_append.mp hnodup).1).2

/-- The halves of a line, as connectables. -/
def halves (c : LineTap) (line : Branch) : Set Connectable :=
  {.branch (line.secondHalf c.line2 c.line2Name c.percent (.atNode c.voltageLevel 2)),
    .branch (line.firstHalf c.line1 c.line1Name c.percent (.atNode c.voltageLevel 0))}

theorem sure_splitLine (h : c.Splittable line s.network) : (c.splitLine line).Sure s := by
  refine Run.Fails.network_bind ?_
  refine (Run.sure_removeLine h.coherent h.keeps).fails.bind fun _ u hremove => ?_
  have hgone : Replaced (fun _ => False) {.branch line} ∅ s.network u.network :=
    Run.replaced_removeLine h.coherent h.keeps hremove
  have hold : ∀ x ∈ [line.terminal1, line.terminal2], u.network.Free x := by
    simpa using ⟨hgone.free_end rfl .one, hgone.free_end rfl .two⟩
  have hfree : ∀ node, u.network.Free (.atNode c.voltageLevel node) := fun node =>
    hgone.stays_free (h.free node) (by simp)
  have hnew : ∀ x ∈ [.atNode c.voltageLevel 0, .atNode c.voltageLevel 2], u.network.Free x := by
    simpa using ⟨hfree 0, hfree 2⟩
  have hne : c.line1 ≠ c.line2 := by
    intro he
    have hnodup := h.nodup
    simp [he] at hnodup
  have hids : ∀ id ∈ [c.line1, c.line2], id ∈ s.network.index →
      ∃ x ∈ ({.branch line} : Set Connectable), x.id = id := by
    intro id hid hm
    have hin : id ∈ [c.line1, c.line2] ++ [c.tap.id] := List.mem_append_left _ hid
    exact ⟨_, rfl, (h.index id hin hm).symm⟩
  have hclash : ∀ x ∈ [line.terminal1, line.terminal2],
      x ∉ [.atNode c.voltageLevel 0, .atNode c.voltageLevel 2] := by
    intro x hx hin
    have hvl : x.voltageLevel = c.voltageLevel := by
      simp only [List.mem_cons, List.not_mem_nil, or_false] at hin
      rcases hin with rfl | rfl <;> rfl
    simp only [List.mem_cons, List.not_mem_nil, or_false] at hx
    rcases hx with rfl | rfl
    · exact h.apart .one hvl
    · exact h.apart .two hvl
  refine Run.Fails.createHalves_bind hgone rfl rfl rfl rfl hold hnew
    (h.coherent.ends_apart h.keeps) (by simp [Terminal.Apart, Terminal.atNode]) rfl rfl hids hne
    (fun f t hf => ?_) fun _ _ => Run.fails_pure _
  cases hf with
  | shared hx hin => exact hclash _ hx hin
  | taken hx hin => exact hclash _ hx hin
  | idTaken _ hkind => exact hkind

theorem replaced_splitLine (h : c.Splittable line s.network)
    (hok : c.splitLine line s = .ok () t) :
    Replaced (·.IsInner) {.branch line} (c.halves line) s.network t.network := by
  simp only [splitLine, bind_eq_ok, Run.network_eq_ok, pure_eq_ok] at hok
  obtain ⟨_, _, ⟨rfl, rfl⟩, _, u, hremove, id1, v, hfirst, id2, w, hsecond, -, rfl⟩ := hok
  have hgone : Replaced (·.IsInner) {.branch line} ∅ s.network u.network :=
    Run.replaced_removeLine h.coherent h.keeps hremove
  have hone := Run.replaced_createLine hgone rfl rfl hfirst
  have htwo := Run.replaced_createLine hone rfl rfl hsecond
  obtain rfl := Run.createLine_id rfl rfl rfl hfirst
  obtain rfl := Run.createLine_id rfl rfl rfl hsecond
  rw [insert_empty_eq] at htwo
  exact htwo

theorem fails_createTap {line : Branch} {far : Terminal}
    (h : Replaced (·.IsInner) {.branch line} (c.halves line) n s.network)
    (hn : c.Splittable line n) (hfar : far.voltageLevel ≠ c.voltageLevel)
    (hfree : s.network.Free far) :
    (Run.createLine { c.tap with
        terminal1 := some (.atNode c.voltageLevel 3), terminal2 := some far }).Fails s fun f _ =>
      ∃ network kind, ObjectKind.IsInner kind ∧ f = .idTaken network kind c.tap.id := by
  have hthree : s.network.Free (.atNode c.voltageLevel 3) := by
    refine h.stays_free (hn.free 3) fun d hd y hy => ?_
    have hne1 := hn.apart .one
    have hne2 := hn.apart .two
    simp only [Branch.terminal] at hne1 hne2
    rcases hd with rfl | rfl <;>
      simp only [Connectable.terminals, Branch.secondHalf, Branch.firstHalf, List.mem_cons,
        List.not_mem_nil, or_false] at hy <;>
      rcases hy with rfl | rfl <;> intro _ he
    · simp [Terminal.atNode] at he
    · exact hne2 (congrArg Terminal.voltageLevel he.symm)
    · exact hne1 (congrArg Terminal.voltageLevel he.symm)
    · simp [Terminal.atNode] at he
  refine (Run.createLine_fails h.coherent rfl rfl).mono fun f u hcause => ?_
  rcases hcause with ⟨x, hx, hrefused⟩ | ⟨he, -⟩ | ⟨-, e, he, rfl⟩
  · refine absurd ?_ (Edit.checkTerminal_error hrefused).1
    simp only [List.mem_cons, List.not_mem_nil, or_false] at hx
    rcases hx with rfl | rfl
    · exact hthree
    · exact hfree
  · exact absurd (congrArg Terminal.voltageLevel he.symm) hfar
  · refine ⟨_, _, h.kind_of_index (fun hm => ?_) (fun d hd => ?_) he, rfl⟩
    · exact ⟨_, rfl, (hn.index c.tap.id (by simp) hm).symm⟩
    · have hnodup := hn.nodup
      simp only [List.nodup_cons, List.mem_cons, List.not_mem_nil, or_false, not_or] at hnodup
      rcases hd with rfl | rfl
      · exact hnodup.2.1
      · exact hnodup.1.2

/-- Tapping a line fails at a check, or for a late conflict, if there is room for the bay. -/
theorem fails_steps (c : LineTap) (hs : s.network.Coherent False)
    (hroom : s.network.RoomAt c.target 2) (naming : NamingStrategy) :
    (c.steps naming).Fails s fun f t =>
      t.network = s.network ∨ LateConflict s.network (.lineTap c) f := by
  refine (Run.spares_line c.line).or_bind fun line _ hfound => ?_
  obtain ⟨hline, rfl⟩ := Run.line_eq_ok.mp hfound
  have hkept := hs.keeps_line hline
  refine (Run.spares_checkPercent _).or_bind fun _ _ hpercent => ?_
  obtain rfl := Run.checkPercent_eq_ok hpercent
  refine (Run.spares_junction c.target).or_bind fun j _ htarget => ?_
  obtain ⟨hj, rfl⟩ := Run.junction_eq_ok.mp htarget
  cases hsub : c.newSubstation with
  | error f => exact (Run.spares_refuse _).mono fun _ _ => Or.inl
  | ok substation =>
    refine Run.Fails.network_bind (Run.Fails.check_bind (Or.inl rfl) fun _ => ?_)
    refine (Run.spares_checkNewIds _ _ _).or_bind fun _ _ hids => ?_
    obtain ⟨hused, hnodup, -⟩ := Run.checkNewIds_spec hids
    obtain rfl := Run.checkNewIds_eq_ok hids
    have hne : c.voltageLevel ∉ substation := fun hin =>
      (List.nodup_append.mp hnodup).2.2 _ (by simp) _ (Option.mem_toList.mpr hin) rfl
    refine ((fails_createVoltageLevel hs hne).mono fun f t hcause => ?_).bind
      fun _ u hlevel => ?_
    · refine hcause.imp_right ?_
      rintro ⟨hsome, e, he, rfl⟩
      exact levelTaken_of_index hs hline hsub hsome (hused _ (by simp)) he
    have hwide := widened_createVoltageLevel hs hlevel
    have hsplit := splittable_createVoltageLevel hs hkept hused hnodup hwide
    refine (sure_splitLine hsplit).fails.bind fun _ v hhalves => ?_
    have hv := replaced_splitLine hsplit hhalves
    have hwired : ∀ {t : Session}, Replaced (·.IsInner) {.branch line} (c.halves line) u.network
        t.network → ∃ w, t.network.inside? c.voltageLevel = some (.nodeBreaker w) := by
      intro t ht
      exact ht.wiring ⟨{}, by rw [hwide.inside, if_pos rfl]⟩
    refine (Run.sure_addConnection (hwired hv) (by simp)).fails.bind fun _ w hadd1 => ?_
    have hw := (Run.rewires_addConnection _ _ _).replaced hv hadd1
    refine (Run.sure_addConnection (hwired hw) (by simp)).fails.bind fun _ x hadd2 => ?_
    have hx := (Run.rewires_addConnection _ _ _).replaced hw hadd2
    refine (Run.sure_addConnection (hwired hx) (by simp)).fails.bind fun _ y hadd3 => ?_
    have hy := (Run.rewires_addConnection _ _ _).replaced hx hadd3
    have hstands := hy.stands (hwide.stands (hs.stands hj))
    have hnew : j.voltageLevel ≠ c.voltageLevel := fun he =>
      hwide.absent (he ▸ hs.mem_of_stands (hs.stands hj))
    have hroom : y.network.Room j.voltageLevel 2 := by
      obtain ⟨m, -, hm, hseats1, hseats2⟩ := hs.removed_line hline
      obtain ⟨-, -, -, hleft⟩ := extended_halves hm hseats1 hseats2 hlevel hhalves
        (bind_eq_ok.mpr ⟨_, _, hadd1, bind_eq_ok.mpr ⟨_, _, hadd2, hadd3⟩⟩)
      exact hleft _ 2 hnew (hroom j hj)
    refine (sure_createTarget hy.coherent hstands hroom).fails.bind fun far z hfar => ?_
    have hz := (rewires_createTarget (Or.inl rfl) (Or.inr rfl) j).replaced hy hfar
    obtain ⟨hvl, hfree⟩ := createTarget_end hy.coherent hroom hfar
    refine ((fails_createTap hz hsplit (hvl ▸ hnew) hfree).mono fun f t hcause => ?_).bind
      fun _ _ _ => Run.fails_emit _
    obtain ⟨network, kind, hkind, rfl⟩ := hcause
    have htap : c.tap.id ∈ s.network.index → c.tap.id ∈ [line].map (·.id) := hused _ (by simp)
    exact Or.inr (.idTaken_of_index hs (by simpa using hkept) htap (List.mem_singleton.mpr rfl)
      hkind)

end LineTap

end Switchyard
