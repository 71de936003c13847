import Switchyard.Proofs.Making

namespace Switchyard

open Std Network

/-- The change rearranges the inside of a voltage level. What it may add there is
of the kinds `K`. -/
def Change.Rewires (K : ObjectKind → Prop) : Change → Prop
  | .addSwitch _ | .addBusSwitch _ => K .switch
  | .addBus _ => K .bus
  | .addConnection .. | .removeSwitch _ | .removeConnections .. => True
  | _ => False

namespace Network

variable {K : ObjectKind → Prop} {S : Set Switch} {C C' : Set Connectable} {n m k : Network}
  {vl id : String} {t u : Topology} {c : Connectable}

/-- The second network is the first one with the connectables `C` besides, and
with the insides of its voltage levels rearranged. No bus is gone, and ids that
are new are those of the connectables, or of things of the kinds `K`. -/
structure Refitted (K : ObjectKind → Prop) (C : Set Connectable) (n m : Network) : Prop where
  inside : ∀ vl t, n.inside? vl = some t → ∃ u, m.inside? vl = some u ∧ u.kind = t.kind
  hasBus : ∀ vl bus, n.HasBus vl bus → m.HasBus vl bus
  keeps_iff : ∀ id c, m.Keeps id c ↔ n.Keeps id c ∨ c.id = id ∧ c ∈ C
  index : ∀ (id : String) e, m.index[id]? = some e →
    n.index[id]? = some e ∨ K e.kind ∨ ∃ c ∈ C, c.id = id
  free : ∀ c ∈ C, c.holder = none

namespace Refitted

theorem refl (n : Network) : Refitted K ∅ n n where
  inside := fun _ t ht => ⟨t, ht, rfl⟩
  hasBus := fun _ _ hb => hb
  keeps_iff := by simp
  index := fun _ _ he => Or.inl he
  free := by simp

theorem trans (h : Refitted K C n m) (h' : Refitted K C' m k) : Refitted K (C ∪ C') n k where
  inside := by
    intro vl t ht
    obtain ⟨u, hu, hut⟩ := h.inside vl t ht
    obtain ⟨v, hv, hvu⟩ := h'.inside vl u hu
    exact ⟨v, hv, hvu.trans hut⟩
  hasBus := fun vl bus hb => h'.hasBus vl bus (h.hasBus vl bus hb)
  keeps_iff := by
    intro id c
    rw [h'.keeps_iff, h.keeps_iff, Set.mem_union, or_assoc, ← and_or_left]
  index := by
    intro id e he
    rcases h'.index id e he with he | hK | ⟨c, hc, hid⟩
    · rcases h.index id e he with he | hK | ⟨c, hc, hid⟩
      · exact Or.inl he
      · exact Or.inr (Or.inl hK)
      · exact Or.inr (Or.inr ⟨c, Or.inl hc, hid⟩)
    · exact Or.inr (Or.inl hK)
    · exact Or.inr (Or.inr ⟨c, Or.inr hc, hid⟩)
  free := fun c hc => hc.elim (h.free c) (h'.free c)

theorem wiring (h : Refitted K C n m) (hw : ∃ w, n.inside? vl = some (.nodeBreaker w)) :
    ∃ w, m.inside? vl = some (.nodeBreaker w) := by
  obtain ⟨w, hw⟩ := hw
  obtain ⟨u, hu, hkind⟩ := h.inside vl _ hw
  cases u with
  | nodeBreaker w' => exact ⟨w', hu⟩
  | busBreaker l => cases hkind

theorem mem_voltageLevels (h : Refitted K C n m) (hvl : vl ∈ n.voltageLevels) :
    vl ∈ m.voltageLevels := by
  obtain ⟨t, ht⟩ := Option.isSome_iff_exists.mp (inside?_isSome_iff.mpr hvl)
  obtain ⟨u, hu, -⟩ := h.inside vl t ht
  rw [← inside?_isSome_iff, hu, Option.isSome_some]

theorem hasRail_iff (h : Refitted K C n m) {r : Rail} : m.HasRail vl r ↔ n.HasRail vl r := by
  have hkept : ∀ b, m.busbarSections[r.id]? = some b ↔ n.busbarSections[r.id]? = some b := by
    intro b
    refine (h.keeps_iff r.id (.busbarSection b)).trans (or_iff_left ?_)
    rintro ⟨-, hb⟩
    cases h.free _ hb
  simp only [HasRail, hkept]

/-- What is free stays so, but for the nodes of the connectables besides. -/
theorem stays_free (h : Refitted K C n m) (hn : n.Coherent False) (hm : m.Coherent False)
    {x : Terminal} (hx : n.Free x) (hC : ∀ c ∈ C, ∀ y ∈ c.terminals, x.Apart y.2) : m.Free x := by
  obtain ⟨vl, connection⟩ := x
  cases connection with
  | bus bus => exact h.hasBus vl bus hx
  | node node =>
    obtain ⟨w, hw, hnot⟩ := hx
    obtain ⟨w', hw'⟩ := h.wiring ⟨w, hw⟩
    refine ⟨w', hw', fun hmem => ?_⟩
    obtain ⟨a, ha⟩ := mem_iff_exists_getElem?.mp hmem
    obtain ⟨c, hc, hside⟩ := (hm.holdsAt_iff vl node a).mp ⟨w', hw', ha⟩
    rcases (h.keeps_iff _ c).mp hc with hc | ⟨-, hc⟩
    · obtain ⟨v, hv, hb⟩ := (hn.holdsAt_iff vl node a).mpr ⟨c, hc, hside⟩
      cases hw.symm.trans hv
      exact hnot (mem_iff_exists_getElem?.mpr ⟨a, hb⟩)
    · exact hC c hc _ hside rfl rfl

/-- What is no longer free is a node that a connectable besides holds. -/
theorem free_or_held (h : Refitted K C n m) (hn : n.Coherent False) (hm : m.Coherent False)
    {x : Terminal} (hx : n.Free x) :
    m.Free x ∨ ∃ c ∈ C, ∃ side node, (side, x) ∈ c.terminals ∧ x.node? = some node ∧
      m.HoldsAt x.voltageLevel node ⟨c.id, side⟩ := by
  by_cases hC : ∀ c ∈ C, ∀ y ∈ c.terminals, x.Apart y.2
  · exact Or.inl (h.stays_free hn hm hx hC)
  · refine Or.inr ?_
    push Not at hC
    obtain ⟨c, hc, ⟨side, y⟩, hside, hnot⟩ := hC
    obtain ⟨hnode, rfl⟩ : x.node?.isSome ∧ x = y := by simpa [Terminal.Apart] using hnot
    obtain ⟨vl, connection⟩ := x
    cases connection with
    | bus bus => cases hnode
    | node node =>
      have hkept : m.Keeps c.id c := (h.keeps_iff c.id c).mpr (Or.inr ⟨rfl, hc⟩)
      exact ⟨c, hc, side, node, hside, rfl, (hm.holdsAt_iff vl node _).mpr ⟨c, hkept, hside⟩⟩

theorem setTopology (ht : n.inside? vl = some t) (hkind : u.kind = t.kind)
    (hbuses : ∀ l, t = .busBreaker l → ∃ l', u = .busBreaker l' ∧ ∀ bus ∈ l.buses, bus ∈ l'.buses)
    {index : ExtTreeMap String IndexEntry}
    (hindex : ∀ (id : String) e, index[id]? = some e → n.index[id]? = some e ∨ K e.kind) :
    Refitted K ∅ n ({ n with index }.setTopology vl u) := by
  have hinside : ∀ x, ({ n with index }.setTopology vl u).inside? x =
      if vl = x then some u else n.inside? x := by
    intro x
    rw [inside?_setTopology]
    split
    next he =>
      have hx : ({ n with index } : Network).inside? x = some t := he ▸ ht
      rw [hx, Option.map_some]
    next => rfl
  refine ⟨fun x s hs => ?_, fun x bus hb => ?_, fun x c => ?_, fun x e he => ?_, by simp⟩
  · rw [hinside]
    split
    next he =>
      subst he
      cases ht.symm.trans hs
      exact ⟨u, rfl, hkind⟩
    next => exact ⟨s, hs, rfl⟩
  · obtain ⟨l, hl, hb⟩ := hb
    rw [HasBus, hinside]
    split
    next he =>
      subst he
      cases ht.symm.trans hl
      obtain ⟨l', rfl, hsub⟩ := hbuses l rfl
      exact ⟨l', rfl, hsub bus hb⟩
    next => exact ⟨l, hl, hb⟩
  · rw [keeps_setTopology]
    cases c <;> simp [Keeps]
  · exact (hindex x e he).imp_right Or.inl

theorem setWiring {w : Wiring} (hw : n.inside? vl = some (.nodeBreaker w)) (w' : Wiring) :
    Refitted K ∅ n (n.setTopology vl (.nodeBreaker w')) := by
  have hnone : ∀ l, Topology.nodeBreaker w ≠ .busBreaker l := by simp
  have hset : Refitted K ∅ n ({ n with index := n.index }.setTopology vl (.nodeBreaker w')) :=
    .setTopology (u := .nodeBreaker w') hw rfl (fun l hl => absurd hl (hnone l)) fun _ _ => Or.inl
  exact hset

theorem gain (ht : n.inside? vl = some t) (hkind : u.kind = t.kind)
    (hbuses : ∀ l, t = .busBreaker l → ∃ l', u = .busBreaker l' ∧ ∀ bus ∈ l.buses, bus ∈ l'.buses)
    {e : IndexEntry} (hK : K e.kind) :
    Refitted K ∅ n ((n.register id e).setTopology vl u) := by
  refine .setTopology ht hkind hbuses fun x f hf => ?_
  rw [ExtTreeMap.getElem?_insert] at hf
  split at hf
  · cases hf
    exact Or.inr hK
  · exact Or.inl hf

end Refitted

end Network

theorem Change.refitted_of_ok {K : ObjectKind → Prop} {n m : Network} {r : Receipt} {c : Change}
    (hc : c.Rewires K) (hok : c.perform n = .ok r m) : Refitted K ∅ n m := by
  cases c with
  | addSwitch d =>
    obtain ⟨id, hcreate, -⟩ := map_eq_ok.mp hok
    obtain ⟨w, hw, -, -, rfl⟩ := SwitchDraft.create_eq_ok hcreate
    refine .gain hw ?_ (by simp) ?_
    · rfl
    · exact hc
  | addBus d =>
    obtain ⟨id, hcreate, -⟩ := map_eq_ok.mp hok
    obtain ⟨l, hl, -, rfl⟩ := BusDraft.create_eq_ok hcreate
    refine .gain hl ?_ (fun l' hl' => ?_) ?_
    · rfl
    · cases hl'
      exact ⟨_, rfl, fun bus hb => ExtTreeMap.mem_insert.mpr (Or.inr hb)⟩
    · exact hc
  | addBusSwitch d =>
    obtain ⟨id, hcreate, -⟩ := map_eq_ok.mp hok
    obtain ⟨l, hl, -, -, -, rfl⟩ := BusSwitchDraft.create_eq_ok hcreate
    refine .gain hl ?_ (fun l' hl' => ?_) ?_
    · rfl
    · cases hl'
      exact ⟨_, rfl, fun bus hb => hb⟩
    · exact hc
  | addConnection vl a b =>
    obtain ⟨_, k, hadd, hk⟩ := bind_eq_ok.mp hok
    obtain ⟨-, rfl⟩ := pure_eq_ok.mp hk
    obtain ⟨w, hw, rfl⟩ := Edit.addConnection_eq_ok hadd
    exact .setWiring hw _
  | removeConnections vl a b =>
    obtain ⟨count, hremove, -⟩ := map_eq_ok.mp hok
    obtain ⟨w, hw, rfl⟩ := Edit.removeConnections_eq_ok hremove
    exact .setWiring hw _
  | removeSwitch id =>
    obtain ⟨_, k, hremove, hk⟩ := bind_eq_ok.mp hok
    obtain ⟨-, rfl⟩ := pure_eq_ok.mp hk
    obtain ⟨vl, u, -, rfl, -, t, ht, hkind, hlayout⟩ := Edit.removeSwitch_eq_ok hremove
    have hindex : ∀ (x : String) e, (n.index.erase id)[x]? = some e →
        n.index[x]? = some e ∨ K e.kind := by
      intro x e he
      rw [ExtTreeMap.getElem?_erase] at he
      split at he
      · cases he
      · exact Or.inl he
    exact .setTopology ht hkind (fun l hl => ⟨_, hlayout l hl, fun _ hb => hb⟩) hindex
  | _ => exact hc.elim

theorem Network.Develops.refitted {K : ObjectKind → Prop} {n m : Network}
    (h : n.Develops (Change.Rewires K) m) : Refitted K ∅ n m := by
  induction h with
  | refl => exact .refl n
  | tail _ hstep ih =>
    obtain ⟨c, r, hc, hok⟩ := hstep
    have hall := ih.trans (Change.refitted_of_ok hc hok)
    rwa [Set.union_self] at hall

namespace Run

variable {K : ObjectKind → Prop} {α : Type} {s t : Session} {naming : NamingStrategy}
  {vl base : String}

/-- The run changes nothing but the insides of voltage levels. -/
abbrev Rewires (K : ObjectKind → Prop) (r : Run α) (s : Session) : Prop :=
  Makes (Change.Rewires K) r s

theorem Rewires.refitted {x : Run α} (h : x.Rewires K s) (hs : s.network.Coherent False) {a : α}
    (hok : x s = .ok a t) : t.network.Coherent False ∧ Refitted K ∅ s.network t.network :=
  ⟨(h.ok hs hok).coherent hs, (h.ok hs hok).refitted⟩

section Building

variable (hK : K .switch)
include hK

theorem rewires_createDisconnectors {fork : Node} {target : String} (rails : List Rail) :
    (createDisconnectors naming vl fork base target rails).Rewires K s := by
  induction rails generalizing s with
  | nil => exact makes_pure ()
  | cons rail rest ih => exact (makes_createSwitch hK).bind fun _ _ => ih

theorem rewires_createBay {bay : BayNodes} {target : String} (rails : List Rail) :
    (createBay naming vl bay base target rails).Rewires K s :=
  (makes_createSwitch hK).bind fun _ _ => rewires_createDisconnectors hK rails

theorem rewires_createLineBay {rail : Rail} {bay : BayNodes} :
    (createLineBay naming vl rail base bay).Rewires K s := by
  refine (makes_baySections vl rail.id rail.node).bind fun rails _ => Makes.network_bind ?_
  refine (rewires_createBay hK rails).bind fun _ _ => ?_
  exact Makes.ite (fun _ => makes_emit _) fun _ => makes_pure ()

theorem rewires_createTwoBays {rail : Rail} {base1 base2 : String} :
    (createTwoBays naming vl rail base1 base2).Rewires K s := by
  refine (makes_nextNode vl).bind fun first _ => (rewires_createLineBay hK).bind fun _ _ => ?_
  exact (rewires_createLineBay hK).bind fun _ _ => makes_pure _

theorem rewires_createBusBay (hbus : K .bus) {bus : String} :
    (createBusBay naming vl bus base).Rewires K s := by
  let draft : BusDraft := { voltageLevel := vl, id := naming.bus base, unique := true }
  refine (makes_edit (c := .addBus draft) (Edit.is_create rfl) hbus).bind fun id _ => ?_
  refine (makes_emit _).bind fun _ _ => ?_
  exact (makes_createBusSwitch hK).bind fun _ _ => makes_pure _

end Building

theorem rewires_pruneLeft (left : List (String × Terminal)) : (pruneLeft left).Rewires K s :=
  makes_pruneLeft (fun _ => trivial) (fun _ _ _ => trivial) left

end Run

theorem Edit.refitted_attachTerminals {K : ObjectKind → Prop} {n m : Network} {id : String}
    {ts : List (Side × Terminal)} (hok : attachTerminals id ts n = .ok () m) :
    Refitted K ∅ n m := by
  induction ts generalizing n with
  | nil =>
    cases hok
    exact .refl m
  | cons x rest ih =>
    obtain ⟨side, vl, connection⟩ := x
    cases connection with
    | bus bus => exact ih hok
    | node node =>
      obtain ⟨w, w', hw, -, hrun⟩ := attachTerminals_eq_ok hok
      have hall := (Refitted.setWiring hw w').trans (ih hrun)
      rwa [Set.union_self] at hall

theorem Run.refitted_createLine {K : ObjectKind → Prop} {s t : Session} {id : String}
    (hs : s.network.Coherent False) {d : BranchDraft} {t1 t2 : Terminal}
    (h1 : d.terminal1 = some t1) (h2 : d.terminal2 = some t2)
    (hok : createLine d s = .ok id t) :
    t.network.Coherent False ∧
      Refitted K {.branch (d.branch t1 t2 id)} s.network t.network := by
  have hok := createLine_eq_ok hok
  have ht : t.network.Coherent False :=
    (Change.addConnectable (.branch d)).coherent_of_ok (Edit.after_map _ _) hs hok
  rw [BranchDraft.create_eq h1 h2] at hok
  have hentered := fun hmake => Edit.enter_eq_ok hmake hok
  obtain ⟨hnew, -, -, k, hattach, hk⟩ := hentered rfl
  have hattached : Refitted K ∅ (s.network.register id ⟨.branch d.kind, none⟩) k :=
    Edit.refitted_attachTerminals hattach
  have hkept : ∀ x c, k.Keeps x c ↔ s.network.Keeps x c := by
    intro x c
    rw [hattached.keeps_iff, keeps_register]
    simp
  have hnone : ∀ c, ¬k.Keeps id c := fun c hc =>
    hs.stores_of_index hnew _ (.connectable ((hkept id c).mp hc))
  refine ⟨ht, ?_⟩
  rw [hk]
  refine ⟨fun vl u hu => ?_, fun vl bus hb => ?_, fun x c => ?_, fun x e he => ?_, ?_⟩
  · rw [inside?_put]
    exact hattached.inside vl u hu
  · rw [HasBus, inside?_put]
    exact hattached.hasBus vl bus hb
  · rw [keeps_put hnone, hkept, Set.mem_singleton_iff]
    grind [Connectable.id, BranchDraft.branch]
  · rw [index_put] at he
    rcases hattached.index x e he with he | hK | ⟨c, hc, -⟩
    · simp only [register, ExtTreeMap.getElem?_insert, Std.compare_eq_iff_eq] at he
      split at he
      next hx => exact Or.inr (Or.inr ⟨_, rfl, hx⟩)
      next => exact Or.inl he
    · exact Or.inr (Or.inl hK)
    · cases hc
  · rintro c rfl
    rfl

end Switchyard
