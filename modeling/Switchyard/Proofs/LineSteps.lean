import Switchyard.Proofs.BayRails
import Switchyard.Proofs.Levels

namespace Switchyard

open Std Network

variable {X : Set String} {S : Set Switch} {C : Set Connectable} {n m : Network}
  {vl id : String}

namespace Network

theorem line?_eq_some_iff {b : Branch} :
    n.line? id = some b ↔ n.Keeps id (.branch b) ∧ b.kind = .line := by
  simp [line?, Keeps, Option.filter_eq_some_iff]

theorem Coherent.line_id (h : n.Coherent False) {b : Branch} (hb : n.line? id = some b) :
    b.id = id :=
  h.connectable_id id (.branch b) (line?_eq_some_iff.mp hb).1

theorem Coherent.keeps_line (h : n.Coherent False) {b : Branch} (hb : n.line? id = some b) :
    n.Keeps b.id (.branch b) :=
  h.line_id hb ▸ (line?_eq_some_iff.mp hb).1

theorem Coherent.junction_of_busbarSection (h : n.Coherent False) {b : BusbarSection}
    (hb : n.busbarSections[id]? = some b) :
    n.junction id = .ok (.busbarSection id b.voltageLevel b.node) := by
  have hid : b.id = id := h.connectable_id id (.busbarSection b) hb
  have hkind : n.kind? id = some .busbarSection := by
    rw [kind?, (h.index_iff id _).mpr (.connectable (c := .busbarSection b) hb)]
    rfl
  unfold junction
  rw [hkind]
  dsimp only
  rw [hb]
  dsimp only
  rw [hid]

theorem Coherent.hasRail_of_junction (h : n.Coherent False) {x : String} {node : Node}
    (hj : n.junction id = .ok (.busbarSection x vl node)) : n.HasRail vl ⟨x, node⟩ := by
  rcases h.junction_cases hj with ⟨y, he, -⟩ | ⟨b, hb, he⟩
  · cases he
  · cases he
    exact ⟨b, hb, rfl, rfl⟩

theorem Coherent.hasBus_of_junction (h : n.Coherent False) {x : String}
    (hj : n.junction id = .ok (.bus x vl)) : n.HasBus vl x := by
  rcases h.junction_cases hj with ⟨y, he, hb⟩ | ⟨b, -, he⟩
  · cases he
    exact hb
  · cases he

theorem Extended.line?_new (h : Extended X S C n m) {b : Branch} (hb : .branch b ∈ C)
    (hkind : b.kind = .line) : m.line? b.id = some b :=
  line?_eq_some_iff.mpr ⟨h.keeps_new hb, hkind⟩

theorem seats_atBus (n : Network) (vl bus : String) : n.Seats (.atBus vl bus) := by
  rintro _ _ _ ⟨⟩

theorem seats_of_not_placed {node : Node}
    (h : ∀ w, n.inside? vl = some (.nodeBreaker w) → node ∉ w.places) :
    n.Seats (.atNode vl node) := by
  rintro _ _ w ⟨⟩ hw hp
  exact absurd hp (h w hw)

/-- The lines leave the network, one after the other. -/
inductive LosesLines : Network → List Branch → Network → Prop
  | nil (n : Network) : LosesLines n [] n
  | cons {n k m : Network} {b : Branch} {rest : List Branch} (hn : n.Coherent False)
    (hb : n.Keeps b.id (.branch b)) (hk : Edit.removeConnectable b.id n = .ok () k)
    (h : LosesLines k rest m) : LosesLines n (b :: rest) m

theorem LosesLines.extended {l : List Branch} (h : n.LosesLines l m) (hn : n.Coherent False) :
    Extended ∅ ∅ {c | ∃ b ∈ l, c = .branch b} m n := by
  induction h with
  | nil n => simpa using Extended.refl hn
  | @cons n k m b rest hn hb hk _ ih =>
    have hone : Extended ∅ ∅ {.branch b} k n := .of_removeConnectable hn hb rfl hk
    have hall := (ih hone.base).trans hone
    have hset : ({c | ∃ d ∈ rest, c = .branch d} ∪ {.branch b} : Set Connectable) =
        {c | ∃ d ∈ b :: rest, c = .branch d} := by
      ext c
      simp only [Set.mem_union, Set.mem_ofPred_eq, Set.mem_singleton_iff, List.mem_cons]
      grind
    rwa [hset, Set.union_self] at hall

/-- Lines that are removed leave no node that is out of use. -/
theorem LosesLines.seats {l : List Branch} (h : n.LosesLines l m) {x : Terminal}
    (hx : (∀ b ∈ l, x ≠ b.terminal1 ∧ x ≠ b.terminal2) → n.Seats x) : m.Seats x := by
  induction h with
  | nil => exact hx (by simp)
  | cons hn hb hk _ ih =>
    refine ih fun hout => hn.seats_removeConnectable hb hk fun hown => hx ?_
    refine List.forall_mem_cons.mpr ⟨?_, hout⟩
    simpa [Connectable.terminals, eq_comm] using hown

end Network

namespace Run

variable {s t : Session}

theorem line_eq_ok {b : Branch} : line id s = .ok b t ↔ s.network.line? id = some b ∧ s = t := by
  simp only [line, bind_eq_ok, network_eq_ok]
  constructor
  · rintro ⟨_, _, ⟨rfl, rfl⟩, h⟩
    cases hb : s.network.line? id with
    | none =>
      rw [hb] at h
      exact (refuse_eq_ok.mp h).elim
    | some a =>
      rw [hb] at h
      obtain ⟨rfl, rfl⟩ := pure_eq_ok.mp h
      exact ⟨rfl, rfl⟩
  · rintro ⟨hb, rfl⟩
    refine ⟨_, s, ⟨rfl, rfl⟩, ?_⟩
    rw [hb]
    rfl

theorem junction_eq_ok {j : Junction} :
    junction id s = .ok j t ↔ s.network.junction id = .ok j ∧ s = t := by
  simp only [junction, bind_eq_ok, network_eq_ok]
  constructor
  · rintro ⟨_, _, ⟨rfl, rfl⟩, h⟩
    cases hj : s.network.junction id with
    | error f =>
      rw [hj] at h
      exact (refuse_eq_ok.mp h).elim
    | ok i =>
      rw [hj] at h
      obtain ⟨rfl, rfl⟩ := pure_eq_ok.mp h
      exact ⟨rfl, rfl⟩
  · rintro ⟨hj, rfl⟩
    refine ⟨_, s, ⟨rfl, rfl⟩, ?_⟩
    rw [hj]
    rfl

theorem busbarSection_eq_ok {b : BusbarSection}
    (h : busbarSection id s = .ok b t) : s.network.busbarSections[id]? = some b ∧ s = t := by
  simp only [busbarSection, bind_eq_ok, network_eq_ok] at h
  obtain ⟨_, _, ⟨rfl, rfl⟩, h⟩ := h
  cases hkind : s.network.kind? id with
  | none =>
    rw [hkind] at h
    exact (refuse_eq_ok.mp h).elim
  | some kind =>
    rw [hkind] at h
    cases kind with
    | busbarSection =>
      dsimp only at h
      cases hb : s.network.busbarSections[id]? with
      | none =>
        rw [hb] at h
        exact (refuse_eq_ok.mp h).elim
      | some found =>
        rw [hb] at h
        obtain ⟨rfl, rfl⟩ := pure_eq_ok.mp h
        exact ⟨rfl, rfl⟩
    | _ => exact (refuse_eq_ok.mp h).elim

theorem checkPercent_eq_ok {percent : Float} {u : Unit}
    (h : checkPercent percent s = .ok u t) : s = t := by
  unfold checkPercent at h
  split at h
  · exact (refuse_eq_ok.mp h).elim
  · exact (pure_eq_ok.mp h).2

theorem checkNewIds_eq_ok {replaced earlier ids : List String} {u : Unit}
    (h : checkNewIds replaced earlier ids s = .ok u t) : s = t := by
  induction ids generalizing earlier with
  | nil => exact (pure_eq_ok.mp h).2
  | cons id rest ih =>
    simp only [checkNewIds, bind_eq_ok, network_eq_ok] at h
    obtain ⟨_, _, ⟨rfl, rfl⟩, h⟩ := h
    split at h
    · simp only [bind_eq_ok, refuse_eq_ok, false_and, exists_false] at h
    · exact ih h

/-- New ids are distinct, and not in use but for what is to be replaced. -/
theorem checkNewIds_spec {replaced earlier ids : List String} {u : Unit}
    (h : checkNewIds replaced earlier ids s = .ok u t) :
    (∀ x ∈ ids, x ∈ s.network.index → x ∈ replaced) ∧ ids.Nodup ∧ ∀ x ∈ ids, x ∉ earlier := by
  induction ids generalizing earlier with
  | nil => simp
  | cons id rest ih =>
    simp only [checkNewIds, bind_eq_ok, network_eq_ok] at h
    obtain ⟨_, _, ⟨rfl, rfl⟩, h⟩ := h
    split at h
    · simp only [bind_eq_ok, refuse_eq_ok, false_and, exists_false] at h
    next hnew =>
      obtain ⟨hused, hnodup, hapart⟩ := ih h
      simp only [contains, Bool.or_eq_true, Bool.and_eq_true, ExtTreeMap.contains_iff_mem,
        decide_eq_true_eq, not_or, not_and, not_not] at hnew
      refine ⟨List.forall_mem_cons.mpr ⟨hnew.1, hused⟩, List.nodup_cons.mpr ⟨fun hm => ?_, hnodup⟩,
        List.forall_mem_cons.mpr ⟨hnew.2, fun x hx he => ?_⟩⟩
      · exact hapart id hm List.mem_cons_self
      · exact hapart x hx (List.mem_cons_of_mem id he)

theorem network_of_warnOfLostLimits {line : Branch} {side : Side} {u : Unit}
    (h : warnOfLostLimits line side s = .ok u t) : t.network = s.network := by
  unfold warnOfLostLimits at h
  split at h
  · rw [emit_eq_ok.mp h, Session.network_tell]
  · rw [(pure_eq_ok.mp h).2]

theorem removeLine_eq_ok {u : Unit} (h : removeLine id s = .ok u t) :
    Edit.removeConnectable id s.network = .ok () t.network := by
  simp only [removeLine, bind_eq_ok, edit_eq_ok, emit_eq_ok] at h
  obtain ⟨_, _, ⟨k, hk, rfl⟩, rfl⟩ := h
  exact hk

theorem createLine_eq_ok {d : BranchDraft} (h : createLine d s = .ok id t) :
    d.create s.network = .ok id t.network := by
  simp only [createLine, bind_eq_ok, edit_eq_ok, emit_eq_ok, pure_eq_ok] at h
  obtain ⟨_, _, ⟨k, hk, rfl⟩, _, _, rfl, rfl, rfl⟩ := h
  exact hk

theorem extended_removeLine (h : Extended X S C n s.network) {c : Connectable} (hc : c ∈ C)
    (hid : c.id = id) (hseats : ∀ x ∈ c.terminals, n.Seats x.2) {u : Unit}
    (hok : removeLine id s = .ok u t) : Extended X S (C \ {c}) n t.network :=
  h.removeConnectable hc hseats (hid ▸ removeLine_eq_ok hok)

/-- All that was besides are lines, and they are removed. -/
theorem extended_removeLines {l : List Branch} (h : Extended X S C n s.network)
    (hC : ∀ c, c ∈ C ↔ ∃ b ∈ l, c = .branch b) (hnodup : l.Nodup)
    (hseats : ∀ b ∈ l, n.Seats b.terminal1 ∧ n.Seats b.terminal2) {u : Unit}
    (hok : removeLines (l.map (·.id)) s = .ok u t) : Extended X S ∅ n t.network := by
  induction l generalizing C s with
  | nil =>
    obtain ⟨-, rfl⟩ := pure_eq_ok.mp hok
    have hnone : C = ∅ := Set.eq_empty_of_forall_notMem fun c hc => by simpa using (hC c).mp hc
    exact hnone ▸ h
  | cons b rest ih =>
    obtain ⟨hb, hrest⟩ := List.nodup_cons.mp hnodup
    obtain ⟨_, v, hremove, hrun⟩ := bind_eq_ok.mp hok
    obtain ⟨⟨hseat1, hseat2⟩, hseats⟩ := List.forall_mem_cons.mp hseats
    have hv := extended_removeLine h ((hC _).mpr ⟨b, List.mem_cons_self, rfl⟩) rfl
      (by simpa [Connectable.terminals] using ⟨hseat1, hseat2⟩) hremove
    refine ih hv (fun c => ?_) hrest hseats hrun
    simp only [Set.mem_sdiff, Set.mem_singleton_iff, hC, List.mem_cons]
    grind

theorem losesLines_of_removeLines {l : List Branch} (h : s.network.Coherent False)
    (hl : ∀ b ∈ l, s.network.Keeps b.id (.branch b)) (hnodup : l.Nodup) {u : Unit}
    (hok : removeLines (l.map (·.id)) s = .ok u t) : s.network.LosesLines l t.network := by
  -- The lines still to go are kept when one goes, as none is there twice.
  induction l generalizing s with
  | nil =>
    obtain ⟨-, rfl⟩ := pure_eq_ok.mp hok
    exact .nil _
  | cons b rest ih =>
    obtain ⟨hb, hrest⟩ := List.nodup_cons.mp hnodup
    obtain ⟨hkept, hl⟩ := List.forall_mem_cons.mp hl
    obtain ⟨_, v, hremove, hrun⟩ := bind_eq_ok.mp hok
    have hremoved := removeLine_eq_ok hremove
    have hone : Extended ∅ ∅ {.branch b} v.network s.network :=
      .of_removeConnectable h hkept rfl hremoved
    refine .cons h hkept hremoved (ih hone.base (fun d hd => ?_) hrest hrun)
    have hne : d ≠ b := fun he => hb (he ▸ hd)
    exact (hone.keeps_iff_of_not_mem (by simpa using hne)).mp (hl d hd)

/-- Lines that are removed were besides what is left. -/
theorem of_removeLines {l : List Branch} (h : s.network.Coherent False)
    (hl : ∀ b ∈ l, s.network.Keeps b.id (.branch b)) (hnodup : l.Nodup) {u : Unit}
    (hok : removeLines (l.map (·.id)) s = .ok u t) :
    Extended ∅ ∅ {c | ∃ b ∈ l, c = .branch b} t.network s.network :=
  (losesLines_of_removeLines h hl hnodup hok).extended h

/-- A created line comes besides, where its draft says. -/
theorem extended_createLine (h : Extended X S C n s.network) {d : BranchDraft} {t1 t2 : Terminal}
    (h1 : d.terminal1 = some t1) (h2 : d.terminal2 = some t2)
    (hok : createLine d s = .ok id t) :
    Extended X S (insert (.branch (d.branch t1 t2 id)) C) n t.network := by
  have hok := createLine_eq_ok hok
  have hk : t.network.Coherent False :=
    (Change.addConnectable (.branch d)).coherent_of_ok (Edit.after_map _ _) h.coherent hok
  rw [BranchDraft.create_eq h1 h2] at hok
  have hentered := fun hmake => h.enter hmake hk hok
  exact hentered ⟨rfl, rfl, rfl, rfl⟩

theorem createLine_id {d : BranchDraft} {t1 t2 : Terminal} (h1 : d.terminal1 = some t1)
    (h2 : d.terminal2 = some t2) (hown : d.unique = false) (hok : createLine d s = .ok id t) :
    id = d.id := by
  have hok := createLine_eq_ok hok
  rw [BranchDraft.create_eq h1 h2] at hok
  have hentered := fun hmake => Edit.enter_eq_ok hmake hok
  exact (hentered rfl).2.1 hown

theorem extended_createNamedLine (h : Extended X S C n s.network) {d : BranchDraft}
    {t1 t2 : Terminal} (h1 : d.terminal1 = some t1) (h2 : d.terminal2 = some t2)
    (hown : d.unique = false) (hok : createLine d s = .ok id t) :
    Extended X S (insert (.branch (d.branch t1 t2 d.id)) C) n t.network :=
  createLine_id h1 h2 hown hok ▸ extended_createLine h h1 h2 hok

theorem pruneLeft_node_eq_ok {line : String} {node : Node} {rest : List (String × Terminal)}
    {x : Unit} :
    pruneLeft ((line, .atNode vl node) :: rest) s = .ok x t ↔
      ∃ u, pruneBay line vl node s = .ok () u ∧ pruneLeft rest u = .ok x t := by
  simp only [pruneLeft, pruneBays, Terminal.node?, Terminal.atNode, bind_eq_ok, pure_eq_ok]
  constructor
  · rintro ⟨_, _, ⟨_, u, hbay, -, rfl⟩, hrest⟩
    exact ⟨u, hbay, hrest⟩
  · rintro ⟨u, hbay, hrest⟩
    exact ⟨(), u, ⟨(), u, hbay, trivial, rfl⟩, hrest⟩

theorem extended_pruneBay_off (h : Extended X S C n s.network) (hvl : vl ∈ X) {line : String}
    {node : Node} (hok : pruneBay line vl node s = .ok () t) : Extended X S C n t.network := by
  have hprunes := prunes_of_pruneBay h.coherent hok
  exact h.sameOff (hprunes.coherent h.coherent) (hprunes.sameOff hvl)

theorem sameOff_pruneLeft (hs : s.network.Coherent False) {left : List (String × Terminal)}
    (hleft : ∀ x ∈ left, x.2.voltageLevel ∈ X) {u : Unit} (hok : pruneLeft left s = .ok u t) :
    t.network.Coherent False ∧ s.network.SameOff X t.network := by
  induction left generalizing s with
  | nil =>
    cases hok
    exact ⟨hs, .refl _⟩
  | cons x rest ih =>
    obtain ⟨hx, hrest⟩ := List.forall_mem_cons.mp hleft
    obtain ⟨line, vl, connection⟩ := x
    cases connection with
    | bus bus => exact ih hs hrest hok
    | node node =>
      obtain ⟨v, hbay, hrun⟩ := pruneLeft_node_eq_ok.mp hok
      have hprunes := prunes_of_pruneBay hs hbay
      obtain ⟨ht, hvt⟩ := ih (hprunes.coherent hs) hrest hrun
      exact ⟨ht, (hprunes.sameOff hx).trans hvt⟩

end Run

end Switchyard
