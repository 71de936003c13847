import Switchyard.Proofs.SectionSteps

namespace Switchyard

open Std Network Run

variable {X : Set String} {n m k : Network} {s t : Session} {naming : NamingStrategy}
  {vl base id : String}

namespace Network

/-- The busbar sections of the first network are in the second one, with a position
if they had one. What its index tells lasts, but for the ids of `X`. -/
structure Preserves (X : Set String) (n m : Network) : Prop where
  rail : ∀ vl r, n.HasRail vl r → m.HasRail vl r
  placed : ∀ id, n.Placed id → m.Placed id
  index : ∀ (id : String) e, id ∉ X → n.index[id]? = some e → m.index[id]? = some e

namespace Preserves

theorem refl (X : Set String) (n : Network) : Preserves X n n :=
  ⟨fun _ _ h => h, fun _ h => h, fun _ _ _ h => h⟩

theorem trans (h : Preserves X n m) (h' : Preserves X m k) : Preserves X n k where
  rail := fun vl r hr => h'.rail vl r (h.rail vl r hr)
  placed := fun id hid => h'.placed id (h.placed id hid)
  index := fun id e hid he => h'.index id e hid (h.index id e hid he)

theorem mono {Y : Set String} (h : Preserves X n m) (hXY : X ⊆ Y) : Preserves Y n m :=
  ⟨h.rail, h.placed, fun id e hid => h.index id e fun hX => hid (hXY hX)⟩

/-- Where nothing leaves, what the index tells lasts if it was told before. -/
theorem of_keeps (hkeeps : ∀ id b, n.Keeps id (.busbarSection b) → m.Keeps id (.busbarSection b))
    (hindex : ∀ (id : String) e, id ∉ X → n.index[id]? = some e → m.index[id]? = some e) :
    Preserves X n m where
  rail := fun vl r hr => by
    obtain ⟨b, hb, hat⟩ := hr
    exact ⟨b, hkeeps _ b hb, hat⟩
  placed := fun id hid => by
    obtain ⟨b, p, hb, hp⟩ := hid
    exact ⟨b, p, hkeeps _ b hb, hp⟩
  index := hindex

/-- What a network gains takes nothing from it. -/
theorem of_gains {tight : Prop} {entry : IndexEntry} (h : n.Gains tight id entry m) :
    Preserves X n m := by
  refine of_keeps (fun x b => h.keeps x _) fun x e _ he => ?_
  have hne : id ≠ x := fun hx => h.fresh (mem_iff_exists_getElem?.mpr ⟨e, hx ▸ he⟩)
  rw [h.index_eq, ExtTreeMap.getElem?_insert, if_neg (by simpa using hne)]
  exact he

theorem put {b : BusbarSection} (hb : n.busbarSections[id]? = some b) (p : BusbarPosition) :
    Preserves X n (n.put id (.busbarSection { b with position := some p })) := by
  have hput : ∀ x, (n.put id (.busbarSection { b with position := some p })).busbarSections[x]? =
      if id = x then some { b with position := some p } else n.busbarSections[x]? := fun x => by
    simp [Network.put, ExtTreeMap.getElem?_insert]
  refine ⟨fun vl r hr => ?_, fun x hx => ?_, fun x e _ he => by rwa [index_put]⟩
  · obtain ⟨c, hc, hlevel, hnode⟩ := hr
    by_cases hx : id = r.id
    · rw [← hx, hb] at hc
      cases hc
      exact ⟨{ b with position := some p }, (hput r.id).trans (if_pos hx), hlevel, hnode⟩
    · exact ⟨c, by rwa [hput, if_neg hx], hlevel, hnode⟩
  · obtain ⟨c, q, hc, hq⟩ := hx
    by_cases hx : id = x
    · exact ⟨_, p, by rw [hput, if_pos hx], rfl⟩
    · exact ⟨c, q, by rwa [hput, if_neg hx], hq⟩

end Preserves

end Network

/-- The changes that the insertion of sections is made of. The switches to go are among `X`. -/
def Change.Inserts (X : Set String) : Change → Prop
  | .addBusbarSection _ | .addSwitch _ => True
  | .setBusbarPosition _ position => position.isSome = true
  | .removeSwitch id => id ∈ X
  | _ => False

theorem Change.preserves_of_ok (hn : n.Coherent False) {c : Change} (hc : c.Inserts X)
    {r : Receipt} (hok : c.perform n = .ok r m) : Preserves X n m := by
  cases c with
  | addBusbarSection d =>
    obtain ⟨x, hcreate, -⟩ := map_eq_ok.mp hok
    obtain ⟨y, k, hcreate', hgains⟩ | ⟨f, hrefused, -⟩ := BusbarSectionDraft.create_cases hn d
    · cases hcreate.symm.trans hcreate'
      exact .of_gains hgains
    · cases hcreate.symm.trans hrefused
  | addSwitch d =>
    obtain ⟨x, hcreate, -⟩ := map_eq_ok.mp hok
    obtain ⟨y, k, hcreate', hgains⟩ | ⟨f, hrefused, -⟩ := SwitchDraft.create_cases hn d
    · cases hcreate.symm.trans hcreate'
      exact .of_gains hgains
    · cases hcreate.symm.trans hrefused
  | setBusbarPosition x position =>
    obtain ⟨p, rfl⟩ := Option.isSome_iff_exists.mp hc
    obtain ⟨_, k, hset, hk⟩ := bind_eq_ok.mp hok
    obtain ⟨-, rfl⟩ := pure_eq_ok.mp hk
    obtain ⟨b, hb, rfl⟩ := Edit.setBusbarPosition_eq_ok hset
    exact .put hb p
  | removeSwitch x =>
    obtain ⟨_, k, hremove, hk⟩ := bind_eq_ok.mp hok
    obtain ⟨-, rfl⟩ := pure_eq_ok.mp hk
    obtain ⟨vl, t, u, j, -, -, hremove', -, hindex, hkeeps, -⟩ | ⟨-, f, hrefused, -⟩ :=
      Edit.removeSwitch_cases hn x
    · cases hremove.symm.trans hremove'
      refine .of_keeps (fun y b => (hkeeps y _).mpr) fun y e hy he => ?_
      have hne : x ≠ y := fun hxy => hy (hxy ▸ hc)
      rw [hindex, getElem?_erase_of_ne hne]
      exact he
    · cases hremove.symm.trans hrefused
  | _ => exact hc.elim

theorem Network.Develops.preserves (h : n.Develops (Change.Inserts X) m) (hn : n.Coherent False) :
    Preserves X n m := by
  induction h with
  | refl => exact .refl X n
  | tail hpath hstep ih =>
    obtain ⟨c, r, hc, hok⟩ := hstep
    exact ih.trans (Change.preserves_of_ok (Develops.coherent hpath hn) hc hok)

theorem BusbarSectionDraft.create_ok (hn : n.Coherent False) {d : BusbarSectionDraft}
    (hfree : n.Free (.atNode d.voltageLevel d.node)) (hunique : d.unique = true) :
    ∃ id m, d.create n = .ok id m := by
  obtain ⟨id, m, hok, -⟩ | ⟨f, hrefused, -⟩ := BusbarSectionDraft.create_cases hn d
  · exact ⟨id, m, hok⟩
  · rw [create_eq] at hrefused
    rcases Edit.enter_error hn hrefused with ⟨k, hcheck⟩ | ⟨htaken, -⟩
    · obtain ⟨-, ht⟩ | ⟨g, ht, -⟩ := Edit.checkTerminal_cases n (.atNode d.voltageLevel d.node)
      · rw [List.map_singleton, Edit.checkTerminals_next ht (by simp)] at hcheck
        cases hcheck
      · exact absurd hfree (Edit.checkTerminal_error ht).1
    · rw [hunique] at htaken
      cases htaken

theorem BusbarSectionDraft.hasRail_of_create (hn : n.Coherent False) {d : BusbarSectionDraft}
    (hok : d.create n = .ok id m) : m.HasRail d.voltageLevel ⟨id, d.node⟩ := by
  rw [create_eq] at hok
  obtain ⟨x, k, hcreate, -, -, hkept⟩ | ⟨f, hrefused, -⟩ := Edit.enter_cases hn
    [(.one, .atNode d.voltageLevel d.node)] d.id d.unique d.section fun x => ⟨rfl, rfl, rfl⟩
  · cases hok.symm.trans hcreate
    exact ⟨_, hkept, rfl, rfl⟩
  · cases hok.symm.trans hrefused

namespace Run

/-- The run inserts sections, and removes no switches but those of `X`. -/
abbrev Inserts {α : Type} (X : Set String) (r : Run α) (s : Session) : Prop :=
  Makes (Change.Inserts X) r s

theorem Inserts.preserves {α : Type} {x : Run α} (h : x.Inserts X s)
    (hs : s.network.Coherent False) {a : α} (hok : x s = .ok a t) :
    t.network.Coherent False ∧ Preserves X s.network t.network :=
  ⟨(h.ok hs hok).coherent hs, (h.ok hs hok).preserves hs⟩

theorem sure_createSection (hs : s.network.Coherent False) {d : BusbarSectionDraft}
    (hfree : s.network.Free (.atNode d.voltageLevel d.node)) (hunique : d.unique = true) :
    (edit d.create).Sure s := by
  obtain ⟨_, _, hok⟩ := BusbarSectionDraft.create_ok hs hfree hunique
  exact sure_edit hok

theorem hasRail_of_createSection (hs : s.network.Coherent False) {d : BusbarSectionDraft}
    (hok : edit d.create s = .ok id t) :
    t.network.Coherent False ∧ Preserves ∅ s.network t.network ∧
      t.network.HasRail d.voltageLevel ⟨id, d.node⟩ := by
  have hmade : (edit d.create).Inserts ∅ s :=
    makes_edit (c := .addBusbarSection d) (Edit.is_create rfl) trivial
  obtain ⟨ht, hkept⟩ := hmade.preserves hs hok
  obtain ⟨k, hk, rfl⟩ := edit_eq_ok.mp hok
  exact ⟨ht, hkept, d.hasRail_of_create hs hk⟩

theorem inserts_createSectionLink {kind : SwitchKind} {a b : Node} {fictitious : Bool} :
    (createSectionLink naming vl base kind a b fictitious).Inserts X s :=
  makes_createSectionLink fun _ _ _ => trivial

/-- A section link leaves what was there, and the rest of the room. -/
theorem kept_createSectionLink (hs : s.network.Coherent False) {r r' : Rail}
    (hr : s.network.HasRail vl r) (hr' : s.network.HasRail vl r') {kind : SwitchKind} {count : Nat}
    (hroom : s.network.Room vl (count + kind.linkNodes)) {fictitious : Bool}
    (hok : createSectionLink naming vl base kind r.node r'.node fictitious s = .ok () t) :
    t.network.Coherent False ∧ Preserves ∅ s.network t.network ∧ t.network.Room vl count := by
  obtain ⟨ht, hkept⟩ := (inserts_createSectionLink (X := ∅)).preserves hs hok
  have hrest := hroom.mono (Nat.le_add_right _ _)
  obtain ⟨-, hleft⟩ :=
    room_createSectionLink hs hroom (hrest.lt_of_rail hs hr) (hrest.lt_of_rail hs hr') hok
  exact ⟨ht, hkept, hleft⟩

theorem sure_createSectionLink (hs : s.network.Coherent False) {r r' : Rail}
    (hr : s.network.HasRail vl r) (hr' : s.network.HasRail vl r') (hne : r.node ≠ r'.node)
    {kind : SwitchKind} (hroom : s.network.Room vl kind.linkNodes) {fictitious : Bool} :
    (createSectionLink naming vl base kind r.node r'.node fictitious).Sure s := by
  have hnext : ∀ {u : Session} {kind : SwitchKind} {id : String} {a b : Node},
      u.network.Coherent False → u.network.HasRail vl r → a ≠ b →
      (createSwitch vl kind id a b false fictitious).Sure u ∧ ∀ v,
        createSwitch vl kind id a b false fictitious u = .ok () v →
          v.network.Coherent False ∧ v.network.HasRail vl r := by
    intro u kind id a b hu hrail hab
    refine ⟨sure_createSwitch (hrail.wiring hu) hab, fun v hv => ?_⟩
    have hmade : (createSwitch vl kind id a b false fictitious).Inserts ∅ u :=
      makes_createSwitch trivial
    obtain ⟨hv, hkept⟩ := hmade.preserves hu hv
    exact ⟨hv, hkept.rail vl r hrail⟩
  refine Fails.ite (fun hkind => ?_) fun _ => (hnext hs hr hne).1
  rw [hkind] at hroom
  have hroom : s.network.Room vl 2 := hroom
  obtain ⟨w, hw⟩ := hr.wiring hs
  have hfirst := hs.ne_rail_of_unplaced (hroom.unplaced_nextNode hw) hr
  have hsecond := hs.ne_rail_of_unplaced (hroom.unplaced (i := 1) (by decide) hw) hr'
  refine (sure_nextNode hw).bind fun first u hok => ?_
  obtain ⟨w', hw', rfl, rfl⟩ := nextNode_eq_ok.mp hok
  cases hw.symm.trans hw'
  obtain ⟨hone, hthen⟩ := hnext hs hr hfirst.symm
  refine hone.bind fun _ t ht => ?_
  obtain ⟨ht, hrail⟩ := hthen t ht
  obtain ⟨htwo, hthen⟩ := hnext ht hrail (a := w.nextNode) (b := w.nextNode + 1) (by simp)
  refine htwo.bind fun _ u hu => ?_
  obtain ⟨hu, hrail⟩ := hthen u hu
  exact (hnext hu hrail hsecond).1

end Run

theorem Extension.Fits.preserves {e : Extension} (h : e.Fits n vl) (hp : Preserves X n m) :
    e.Fits m vl where
  toRailed := h.toRailed.mono (hp.rail vl)
  placed := hp.placed _ h.placed
  nodup := h.nodup

namespace SectionInsertion

theorem sure_shift (moves : List (String × BusbarPosition))
    (hmoves : ∀ x ∈ moves, s.network.Placed x.1) : (shift moves).Sure s := by
  induction moves generalizing s with
  | nil => exact fails_pure ()
  | cons move rest ih =>
    obtain ⟨id, p⟩ := move
    obtain ⟨⟨b, q, hb, -⟩, hrest⟩ := List.forall_mem_cons.mp hmoves
    have hset := Edit.setBusbarPosition_of_some hb
      (some { p with sectionIndex := p.sectionIndex + 1 })
    refine (sure_edit hset).bind fun _ t ht => ih fun x hx => ?_
    obtain ⟨k, hk, rfl⟩ := edit_eq_ok.mp ht
    cases hset.symm.trans hk
    exact (Preserves.put (X := ∅) hb _).placed x.1 (hrest x hx)

theorem fails_removeSwitches (hs : s.network.Coherent False) {ids : List String}
    (hnodup : ids.Nodup) :
    (removeSwitches ids).Fails s fun f _ => ∃ id ∈ ids, f = .switchNotFound id ∧
      ∀ holder, s.network.index[id]? ≠ some ⟨.switch, some holder⟩ := by
  induction ids generalizing s with
  | nil => exact fails_pure ()
  | cons id rest ih =>
    obtain ⟨hnot, hrest⟩ := List.nodup_cons.mp hnodup
    obtain ⟨vl, u, v, m, -, -, hremove, hm, hindex, -⟩ | ⟨hno, -⟩ :=
      Edit.removeSwitch_cases hs id
    · refine (sure_edit hremove).fails.bind fun _ t ht => Fails.emit_bind ?_
      obtain ⟨k, hk, rfl⟩ := edit_eq_ok.mp ht
      cases hremove.symm.trans hk
      refine (ih (s := Session.tell { s with network := m } (.switchRemoved id)) hm
        hrest).mono fun f _ hx => ?_
      obtain ⟨x, hx, hf, hmissing⟩ := hx
      refine ⟨x, List.mem_cons_of_mem id hx, hf, fun holder => ?_⟩
      have hne : id ≠ x := fun he => hnot (he ▸ hx)
      rw [← getElem?_erase_of_ne hne, ← hindex]
      exact hmissing holder
    · refine Fails.bind (fails_edit fun f k hr => ?_) fun _ t ht => ?_
      · rw [Edit.removeSwitch_of_missing hno] at hr
        cases hr
        exact ⟨id, List.mem_cons_self, rfl, hno⟩
      · obtain ⟨k, hk, -⟩ := edit_eq_ok.mp ht
        rw [Edit.removeSwitch_of_missing hno] at hk
        cases hk

theorem inserts_insertSection (c : SectionInsertion) {e : Extension}
    (he : ∀ id ∈ e.switches, id ∈ X) : (c.insertSection naming vl e).Inserts X s := by
  refine (makes_removeSwitches he).bind fun _ t => Makes.network_bind ?_
  split
  next p hp =>
    refine (makes_nextNode vl).bind fun node _ => ?_
    refine Makes.bind (makes_edit (c := .addBusbarSection _) (Edit.is_create rfl) trivial)
      fun id _ => (makes_emit _).bind fun _ _ => ?_
    refine Makes.ite (fun _ => inserts_createSectionLink.bind fun _ _ => ?_) fun _ =>
      inserts_createSectionLink.bind fun _ _ => ?_
    all_goals
      split
      · exact makes_pure ()
      · exact Makes.ite (fun _ => inserts_createSectionLink) fun _ => inserts_createSectionLink
  next => exact makes_throw _

/-- Where there is room, nothing but a switch of the way that is gone can keep a section
from being inserted. -/
theorem fails_insertSection (c : SectionInsertion) (hs : s.network.Coherent False) {e : Extension}
    (he : e.Fits s.network vl) (hroom : s.network.Room vl c.nodeCount) :
    (c.insertSection naming vl e).Fails s fun f _ => ∃ id ∈ e.switches, f = .switchNotFound id ∧
      ∀ holder, s.network.index[id]? ≠ some ⟨.switch, some holder⟩ := by
  refine (fails_removeSwitches hs he.nodup).bind fun _ t hok => Fails.network_bind ?_
  have hremoved : (removeSwitches e.switches).Inserts {id | id ∈ e.switches} s :=
    makes_removeSwitches fun _ => id
  obtain ⟨ht, hkept⟩ := hremoved.preserves hs hok
  obtain ⟨-, hroom⟩ := room_removeSwitches hs hroom hok
  have he := he.preserves hkept
  obtain ⟨b, p, hb, hp⟩ := he.placed
  rw [hb, Option.bind_some, hp]
  obtain ⟨w, hw⟩ := he.rail.wiring ht
  refine Sure.fails ((sure_nextNode hw).bind fun node u hnode => ?_)
  obtain ⟨w', hw', rfl, rfl⟩ := nextNode_eq_ok.mp hnode
  cases hw.symm.trans hw'
  have hroom : t.network.Room vl (c.left.kind.linkNodes + c.right.kind.linkNodes + 1) :=
    hroom.mono (by unfold nodeCount; omega)
  have hfresh := hroom.unplaced_nextNode hw
  refine (sure_createSection ht (ht.free_of_unplaced hw hfresh) rfl).bind fun x u hok =>
    Fails.emit_bind ?_
  obtain ⟨hu, hkept, hnew⟩ := hasRail_of_createSection ht hok
  have hold := hkept.rail vl
  have hne : ∀ r, t.network.HasRail vl r → w.nextNode ≠ r.node := fun r hr =>
    ht.ne_rail_of_unplaced hfresh hr
  have hroom : u.network.Room vl (c.left.kind.linkNodes + c.right.kind.linkNodes) := by
    obtain ⟨k, hcreate, rfl⟩ := edit_eq_ok.mp hok
    exact (c.room_createSection ht hw hroom hcreate).2
  refine Fails.ite (fun hafter => ?_) fun hbefore => ?_
  · rw [Nat.add_comm] at hroom
    refine (sure_createSectionLink (s := u.tell _) hu (hold _ he.rail) hnew (hne _ he.rail).symm
      (hroom.mono (Nat.le_add_left _ _))).bind fun _ v hv => ?_
    obtain ⟨hv, hlater, hroom⟩ :=
      kept_createSectionLink (s := u.tell _) hu (hold _ he.rail) hnew hroom hv
    split
    · exact fails_pure ()
    next other ho =>
      obtain ⟨r, hr, hnode⟩ := he.neighbour other ho
      rw [← hnode]
      have hfar := hlater.rail vl _ (hold _ hr)
      exact Fails.ite
        (fun _ => sure_createSectionLink hv (hlater.rail vl _ hnew) hfar (hne _ hr) hroom)
        fun hno => absurd hafter hno
  · refine (sure_createSectionLink (s := u.tell _) hu hnew (hold _ he.rail) (hne _ he.rail)
      (hroom.mono (Nat.le_add_left _ _))).bind fun _ v hv => ?_
    obtain ⟨hv, hlater, hroom⟩ :=
      kept_createSectionLink (s := u.tell _) hu hnew (hold _ he.rail) hroom hv
    split
    · exact fails_pure ()
    next other ho =>
      obtain ⟨r, hr, hnode⟩ := he.neighbour other ho
      rw [← hnode]
      have hfar := hlater.rail vl _ (hold _ hr)
      exact Fails.ite (fun hyes => absurd hyes hbefore)
        fun _ => sure_createSectionLink hv hfar (hlater.rail vl _ hnew) (hne _ hr).symm hroom

/-- Where there is room, insertions fail only if two of the ways have a switch in common. -/
theorem fails_insertSections (c : SectionInsertion) (naming : NamingStrategy)
    (done es : List Extension) (hapart : ((done ++ es).map (·.rail)).Nodup)
    (hfits : ∀ e ∈ es, e.Fits n vl)
    (hswitches : ∀ e ∈ es, ∀ id ∈ e.switches, n.index[id]? = some ⟨.switch, some vl⟩)
    (hs : s.network.Coherent False) (hroom : s.network.Room vl (es.length * c.nodeCount))
    (hkept : Preserves {id | ∃ e ∈ done, id ∈ e.switches} n s.network) :
    (c.insertSections naming vl es).Fails s fun f _ => ∃ id, f = .switchNotFound id ∧
      ∃ e ∈ done ++ es, ∃ e' ∈ done ++ es, e.rail ≠ e'.rail ∧ id ∈ e.switches ∧
        id ∈ e'.switches := by
  induction es generalizing done s with
  | nil => exact fails_pure ()
  | cons e rest ih =>
    obtain ⟨he, hrest⟩ := List.forall_mem_cons.mp hfits
    obtain ⟨hway, hways⟩ := List.forall_mem_cons.mp hswitches
    rw [List.length_cons, Nat.succ_mul] at hroom
    have he := he.preserves hkept
    refine Fails.bind ((c.fails_insertSection hs he (hroom.mono (Nat.le_add_left _ _))).mono
      fun f _ hx => ?_) fun _ t ht => ?_
    · obtain ⟨id, hid, rfl, hmissing⟩ := hx
      have hgone : ∃ e ∈ done, id ∈ e.switches := by
        by_contra hno
        exact hmissing vl (hkept.index id _ hno (hway id hid))
      obtain ⟨e', hdone, hid'⟩ := hgone
      refine ⟨id, rfl, e', by simp [hdone], e, by simp, fun hrail => ?_, hid', hid⟩
      rw [List.map_append, List.nodup_append] at hapart
      exact hapart.2.2 e'.rail (List.mem_map_of_mem hdone) e.rail (by simp) hrail
    · have hmade : (c.insertSection naming vl e).Inserts {id | id ∈ e.switches} s :=
        c.inserts_insertSection fun _ => id
      have hroom := c.room_insertSection hs he.toRailed hroom ht
      obtain ⟨ht, hnext⟩ := hmade.preserves hs ht
      have hsplit : done ++ e :: rest = (done ++ [e]) ++ rest := by simp
      rw [hsplit] at hapart ⊢
      refine ih (done ++ [e]) hapart hrest hways ht hroom
        ((hkept.mono fun id hid => ?_).trans (hnext.mono fun id hid => ?_))
      · obtain ⟨e', hdone, hid⟩ := hid
        exact ⟨e', by simp [hdone], hid⟩
      · exact ⟨e, by simp, hid⟩

end SectionInsertion

end Switchyard
