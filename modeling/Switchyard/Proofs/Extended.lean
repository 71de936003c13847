import Mathlib.Data.List.Nodup
import Switchyard.Proofs.Wired

namespace Switchyard

open Std

theorem Connectable.nodup_terminals (c : Connectable) : (c.terminals.map (·.1)).Nodup := by
  cases c <;> simp [terminals]

namespace Network

variable {X Y : Set String} {S S' : Set Switch} {C C' : Set Connectable} {n m k : Network}
  {vl id : String} {c : Connectable}

/-- The second network is the first one with the switches `S` and the
connectables `C` besides. What lies inside the voltage levels `X` is left open. -/
structure Extended (X : Set String) (S : Set Switch) (C : Set Connectable) (n m : Network) :
    Prop extends Wired X S (attachments C) n m where
  base : n.Coherent False
  coherent : m.Coherent False
  substations : m.substations = n.substations
  keeps_iff : ∀ id c, m.Keeps id c ↔ n.Keeps id c ∨ c.id = id ∧ c ∈ C
  fresh : ∀ c ∈ C, ∀ d, ¬n.Keeps c.id d
  free : ∀ c ∈ C, c.holder = none

/-- The networks differ inside the voltage levels `X` only. -/
structure SameOff (X : Set String) (m k : Network) : Prop where
  level : ∀ vl ∉ X, k.voltageLevels[vl]? = m.voltageLevels[vl]?
  shell : ∀ vl, k.shell? vl = m.shell? vl
  substations : k.substations = m.substations
  keeps_iff : ∀ id c, k.Keeps id c ↔ m.Keeps id c

/-- A connectable that is removed leaves no node that is out of use. -/
theorem Coherent.seats_removeConnectable (h : n.Coherent False) (hc : n.Keeps id c)
    (hok : Edit.removeConnectable id n = .ok () m) {t : Terminal}
    (ht : (∀ x ∈ c.terminals, x.2 ≠ t) → n.Seats t) : m.Seats t := by
  obtain ⟨d, hd, hdetach⟩ := Edit.removeConnectable_eq_ok hok
  cases h.keeps_unique hd hc
  have hinside : ∀ vl, ((n.take id c).forget id).inside? vl = n.inside? vl := n.inside?_take id c
  have hsound : ((n.take id c).forget id).Sound := fun vl w hw =>
    h.sound vl w ((hinside vl).symm.trans hw)
  refine hsound.seats_detachTerminals hdetach fun hout vl node w he hw => ?_
  refine ht (fun x hx hxt => hout ?_) vl node w he ((hinside vl).symm.trans hw)
  exact hxt ▸ List.mem_map_of_mem hx

namespace Extended

theorem refl (h : n.Coherent False) : Extended X ∅ ∅ n n where
  toWired := by
    rw [attachments_empty]
    exact Wired.refl h.sound
  base := h
  coherent := h
  substations := rfl
  keeps_iff := by simp
  fresh := by simp
  free := by simp

theorem mono (h : Extended X S C n m) (hXY : X ⊆ Y) : Extended Y S C n m :=
  { h with inside := fun vl hvl => h.inside vl fun hx => hvl (hXY hx) }

theorem sameOff (h : Extended X S C n m) (hk : k.Coherent False) (hs : m.SameOff X k) :
    Extended X S C n k where
  shell := fun vl => (hs.shell vl).trans (h.shell vl)
  inside := fun vl hvl => by simpa only [inside?, hs.level vl hvl] using h.inside vl hvl
  base := h.base
  coherent := hk
  substations := hs.substations.trans h.substations
  keeps_iff := fun id c => (hs.keeps_iff id c).trans (h.keeps_iff id c)
  fresh := h.fresh
  free := h.free

theorem trans (h : Extended X S C n m) (h' : Extended X S' C' m k) :
    Extended X (S ∪ S') (C ∪ C') n k where
  toWired := by
    have hsides : attachments (C ∪ C') = attachments C ∪ attachments C' := by
      ext x
      simp only [attachments, Set.mem_ofPred_eq, Set.mem_union]
      grind
    rw [hsides]
    exact h.toWired.trans h'.toWired
  base := h.base
  coherent := h'.coherent
  substations := h'.substations.trans h.substations
  keeps_iff := by
    intro id c
    rw [h'.keeps_iff, h.keeps_iff, Set.mem_union, or_assoc, ← and_or_left]
  fresh := by
    rintro c (hc | hc) d hd
    · exact h.fresh c hc d hd
    · exact h'.fresh c hc d ((h.keeps_iff _ d).mpr (Or.inl hd))
  free := by
    rintro c (hc | hc)
    · exact h.free c hc
    · exact h'.free c hc

theorem keeps_new (h : Extended X S C n m) (hc : c ∈ C) : m.Keeps c.id c :=
  (h.keeps_iff c.id c).mpr (Or.inr ⟨rfl, hc⟩)

/-- Nothing that was there is at a node of a connectable besides. -/
theorem notMem_terminals (h : Extended X S C n m) {d : Connectable} (hd : n.Keeps id d)
    {side : Side} (hside : (side, .atNode vl node) ∈ d.terminals) (hc : c ∈ C) (side' : Side) :
    (side', .atNode vl node) ∉ c.terminals := by
  intro hin
  have hold := (h.coherent.holdsAt_iff vl node ⟨id, side⟩).mpr
    ⟨d, (h.keeps_iff id d).mpr (Or.inl hd), hside⟩
  have hnew := (h.coherent.holdsAt_iff vl node ⟨c.id, side'⟩).mpr ⟨c, h.keeps_new hc, hin⟩
  cases holdsAt_unique hold hnew
  exact h.fresh c hc d hd

theorem keeps_iff_of_not_mem (h : Extended X S C n m) (hc : c ∉ C) :
    m.Keeps id c ↔ n.Keeps id c := by
  simp [h.keeps_iff, hc]

theorem busbarSections_eq (h : Extended X S C n m) : m.busbarSections = n.busbarSections := by
  apply ExtTreeMap.ext_getElem?
  intro id
  apply Option.ext
  intro b
  have hb : Connectable.busbarSection b ∉ C := fun hb => by cases h.free _ hb
  exact h.keeps_iff_of_not_mem hb

theorem eq_of_id (h : Extended X S C n m) {d : Connectable} (hc : c ∈ C) (hd : d ∈ C)
    (hid : d.id = c.id) : d = c :=
  h.coherent.keeps_unique (hid ▸ h.keeps_new hd) (h.keeps_new hc)

theorem enter (h : Extended X S C n m) {ts : List (Side × Terminal)} {unique : Bool}
    {make : String → Connectable} {given : String}
    (hmake : (make given).id = given ∧ (make given).terminals = ts ∧
      (make given).entry = (make id).entry ∧ (make given).holder = none)
    (hk : k.Coherent False)
    (hok : Edit.enter ts id unique make m = .ok given k) :
    Extended X S (insert (make given) C) n k := by
  obtain ⟨hid, hts, hentry, hholder⟩ := hmake
  obtain ⟨hnew, -, -, j, hattach, rfl⟩ := Edit.enter_eq_ok hentry hok
  have hwired := Wired.attachTerminals
    (m := m.register given (make given).entry) (h.toWired.congr rfl) hattach
  have hrest := Edit.rest_of_attachTerminals hattach
  have hkeeps : ∀ x d, j.Keeps x d ↔ m.Keeps x d := by
    intro x d
    rw [hrest]
    cases d <;> rfl
  have hnone : ∀ d, ¬m.Keeps given d := fun d hd =>
    h.coherent.stores_of_index hnew _ (.connectable hd)
  have hput : ∀ x d, (j.put given (make given)).Keeps x d ↔
      m.Keeps x d ∨ x = given ∧ d = make given := by
    intro x d
    rw [keeps_put (fun d hd => hnone d ((hkeeps given d).mp hd)), hkeeps]
  refine ⟨?_, h.base, hk, ?_, fun x d => ?_, ?_, ?_⟩
  · rw [attachments_insert, hid, hts]
    exact hwired.congr (voltageLevels_put _ _ _)
  · rw [substations_put, hrest]
    exact h.substations
  · rw [hput, h.keeps_iff x d]
    simp only [Set.mem_insert_iff]
    grind
  · intro c hc d hkept
    rcases Set.mem_insert_iff.mp hc with rfl | hc
    · exact hnone d (hid ▸ (h.keeps_iff _ d).mpr (Or.inl hkept))
    · exact h.fresh c hc d hkept
  · intro c hc
    rcases Set.mem_insert_iff.mp hc with rfl | hc
    · exact hholder
    · exact h.free c hc

/-- A removed connectable was besides, and is no more. -/
theorem removeConnectable (h : Extended X S C n m) (hc : c ∈ C)
    (hseats : ∀ x ∈ c.terminals, n.Seats x.2)
    (hok : Edit.removeConnectable c.id m = .ok () k) : Extended X S (C \ {c}) n k := by
  have hk : k.Coherent False :=
    (Change.removeConnectable c.id).coherent_of_ok (Edit.after_return _ _) h.coherent hok
  obtain ⟨d, hd, hdetach⟩ := Edit.removeConnectable_eq_ok hok
  have heq := h.coherent.keeps_unique hd (h.keeps_new hc)
  subst heq
  have hsides : ∀ x ∈ d.terminals, (x.2, (⟨d.id, x.1⟩ : Attachment)) ∈ attachments C :=
    fun x hx => ⟨d, hc, rfl, hx⟩
  have hwired := Wired.detachTerminals
    (m := (m.take d.id d).forget d.id) (h.toWired.congr (voltageLevels_take _ _ _))
    (List.Nodup.of_map _ d.nodup_terminals) hsides hseats hdetach
  have hrest := Edit.rest_of_detachTerminals hdetach
  have hkeeps : ∀ x e, k.Keeps x e ↔ m.Keeps x e ∧ x ≠ d.id := by
    intro x e
    rw [← h.coherent.keeps_take hd, hrest]
    cases e <;> rfl
  refine ⟨hwired.congr_terminals fun x => ?_, h.base, hk, ?_, fun x e => ?_,
    fun e he => h.fresh e he.1, fun e he => h.free e he.1⟩
  · have hsame : ∀ e ∈ C, e.id = d.id ↔ e = d := fun e he =>
      ⟨fun hid => h.eq_of_id hc he hid, fun hx => hx ▸ rfl⟩
    ext y
    simp only [terminalsAt, attachments, sidesOf, Set.mem_ofPred_eq, Set.mem_sdiff,
      Set.mem_singleton_iff]
    grind
  · rw [hrest]
    exact (substations_take m d.id d).trans h.substations
  · rw [hkeeps, h.keeps_iff x e]
    have hfresh := h.fresh d hc e
    have hsame : e ∈ C → e.id = d.id → e = d := fun hm hid => h.eq_of_id hc hm hid
    simp only [Set.mem_sdiff, Set.mem_singleton_iff]
    grind

/-- What is left without a connectable has it besides, where it was. -/
theorem of_removeConnectable (h : n.Coherent False) (hk : n.Keeps id c) (hc : c.holder = none)
    (hok : Edit.removeConnectable id n = .ok () m) : Extended X ∅ {c} m n := by
  have hm : m.Coherent False :=
    (Change.removeConnectable id).coherent_of_ok (Edit.after_return _ _) h hok
  obtain ⟨d, hd, hdetach⟩ := Edit.removeConnectable_eq_ok hok
  have heq := h.keeps_unique hd hk
  subst heq
  have hid := h.connectable_id id d hd
  subst hid
  have hinside : ∀ vl, ((n.take d.id d).forget d.id).inside? vl = n.inside? vl :=
    n.inside?_take d.id d
  have hholds : ∀ side vl node, (side, .atNode vl node) ∈ d.terminals →
      ((n.take d.id d).forget d.id).HoldsAt vl node ⟨d.id, side⟩ := by
    intro side vl node hs
    obtain ⟨w, hw, ha⟩ := (h.holdsAt_iff vl node ⟨d.id, side⟩).mpr ⟨d, hd, hs⟩
    exact ⟨w, (hinside vl).trans hw, ha⟩
  have hsound : ((n.take d.id d).forget d.id).Sound := fun vl w hw =>
    h.sound vl w ((hinside vl).symm.trans hw)
  have hwired := Wired.of_detachTerminals (X := X) hsound
    (List.Nodup.of_map _ d.nodup_terminals) hholds hdetach
  have hrest := Edit.rest_of_detachTerminals hdetach
  have hkeeps : ∀ x e, m.Keeps x e ↔ n.Keeps x e ∧ x ≠ d.id := by
    intro x e
    rw [← h.keeps_take hd, hrest]
    cases e <;> rfl
  refine ⟨?_, hm, h, ?_, fun x e => ?_, ?_, ?_⟩
  · rw [attachments_singleton]
    exact hwired.congr (voltageLevels_take _ _ _).symm
  · rw [hrest]
    exact (substations_take n d.id d).symm
  · rw [hkeeps, Set.mem_singleton_iff]
    constructor
    · intro he
      by_cases hx : x = d.id
      · subst hx
        have heq := h.keeps_unique he hd
        exact Or.inr ⟨congrArg Connectable.id heq, heq⟩
      · exact Or.inl ⟨he, hx⟩
    · rintro (⟨he, -⟩ | ⟨rfl, rfl⟩)
      · exact he
      · exact hd
  · rintro e rfl f hf
    exact ((hkeeps _ f).mp hf).2 rfl
  · rintro e rfl
    exact hc

theorem createSwitch (h : Extended X S C n m) {d : SwitchDraft}
    (hok : d.create m = .ok id k) : Extended X (insert (d.switch id) S) C n k := by
  have hk : k.Coherent False :=
    (Change.addSwitch d).coherent_of_ok (Edit.after_map _ _) h.coherent hok
  obtain ⟨w', hw', hne, hid, rfl⟩ := SwitchDraft.create_eq_ok hok
  have hnew : id ∉ w'.switches := fun hm =>
    h.coherent.stores_of_index hid _ (.inside hw' ⟨rfl, hm⟩)
  have hregister : Wired X S (attachments C) n (m.register id ⟨.switch, some d.voltageLevel⟩) :=
    h.toWired.congr rfl
  refine ⟨hregister.setTopology hw' (fun x hx => ?_) (fun _ _ => rfl) fun w hw hs hs' ha => ?_,
    h.base, hk, h.substations, fun x c => ?_, h.fresh, h.free⟩
  · ext s
    simp only [switchesAt, Set.mem_ofPred_eq, Set.mem_insert_iff]
    constructor
    · rintro ⟨rfl | hs, hvl⟩
      · exact absurd hvl.symm hx
      · exact ⟨hs, hvl⟩
    · exact fun hs => ⟨Or.inr hs.1, hs.2⟩
  · have hS : switchesAt (insert (d.switch id) S) d.voltageLevel =
        insert (d.switch id) (switchesAt S d.voltageLevel) := by
      ext s
      simp only [switchesAt, Set.mem_ofPred_eq, Set.mem_insert_iff]
      constructor
      · rintro ⟨rfl | hs, hvl⟩
        · exact Or.inl rfl
        · exact Or.inr ⟨hs, hvl⟩
      · rintro (rfl | hs)
        · exact ⟨Or.inl rfl, rfl⟩
        · exact ⟨Or.inr hs.1, hs.2⟩
    rw [hS]
    exact ⟨hs'.addSwitch hne hnew, ha.addSwitch hs' hne hnew⟩
  · rw [← h.keeps_iff x c]
    cases c <;> rfl

/-- The switches besides are inside the voltage levels that they tell. -/
theorem index_switch (h : Extended X S C n m) {s : Switch} (hs : s ∈ S)
    (hvl : s.voltageLevel ∉ X) {w : Wiring}
    (hw : n.inside? s.voltageLevel = some (.nodeBreaker w)) :
    m.index[s.id]? = some ⟨.switch, some s.voltageLevel⟩ := by
  obtain ⟨w', hw', -, -, ha⟩ := h.toWired.of_wiring hvl hw
  have hm : s.id ∈ w'.switches :=
    mem_iff_exists_getElem?.mpr ⟨s, (ha.switch_new s ⟨hs, rfl⟩).1⟩
  exact (h.coherent.index_iff s.id _).mpr (.inside hw' ⟨rfl, hm⟩)

theorem removeSwitch (h : Extended X S C n m) {s : Switch} (hs : s ∈ S) (hvl : s.voltageLevel ∉ X)
    {w : Wiring} (hw : n.inside? s.voltageLevel = some (.nodeBreaker w))
    (hheld : ∀ node, s.Meets node → node ∈ w.places → w.Referenced node)
    (hok : Edit.removeSwitch s.id m = .ok () k) : Extended X (S \ {s}) C n k := by
  have hk : k.Coherent False :=
    (Change.removeSwitch s.id).coherent_of_ok (Edit.after_return _ _) h.coherent hok
  obtain ⟨w', hw', -, -, -⟩ := h.toWired.of_wiring hvl hw
  obtain ⟨vl, u, hi, rfl, hu, -⟩ := Edit.removeSwitch_eq_ok hok
  rw [h.index_switch hs hvl hw] at hi
  cases hi
  obtain ⟨w'', hw'', rfl⟩ := hu w' hw'
  have hwired : Wired X (S \ {s}) (attachments C) n
      (m.setTopology s.voltageLevel (.nodeBreaker w'')) := by
    refine h.toWired.setTopology hw' (fun x hx => ?_) (fun _ _ => rfl) fun v hv hsv hs' ha => ?_
    · ext t
      simp only [switchesAt, Set.mem_ofPred_eq, Set.mem_sdiff, Set.mem_singleton_iff]
      constructor
      · exact fun ht => ⟨ht.1.1, ht.2⟩
      · exact fun ht => ⟨⟨ht.1, fun he => hx (he ▸ ht.2.symm)⟩, ht.2⟩
    · have hS : switchesAt (S \ {s}) s.voltageLevel = switchesAt S s.voltageLevel \ {s} := by
        ext t
        simp only [switchesAt, Set.mem_ofPred_eq, Set.mem_sdiff, Set.mem_singleton_iff]
        grind
      rw [hw] at hv
      cases hv
      obtain ⟨x, hx, ha'⟩ := ha.removeSwitch? hsv hs' ⟨hs, rfl⟩ hheld
      obtain ⟨y, hy, hsound, -⟩ := hs'.removeSwitch?
        (mem_iff_exists_getElem?.mpr ⟨s, (ha.switch_new s ⟨hs, rfl⟩).1⟩)
      rw [hw''] at hx hy
      cases hx
      cases hy
      rw [hS]
      exact ⟨hsound, ha'⟩
  refine ⟨hwired.congr rfl, h.base, hk, h.substations, fun x c => ?_, h.fresh, h.free⟩
  rw [← h.keeps_iff x c]
  cases c <;> rfl

theorem setFeederPosition (h : Extended X S C n m) (hc : c ∈ C) {position : Option FeederPosition}
    (hok : Edit.setFeederPosition c.id position m = .ok () k) :
    Extended X S (insert (c.withPosition position) (C \ {c})) n k := by
  obtain ⟨d, j, hd, hrun, hj, -, hput⟩ | ⟨-, f, hrun, -⟩ :=
    Edit.setFeederPosition_cases h.coherent c.id position
  · rw [hok] at hrun
    cases hrun
    have heq := h.coherent.keeps_unique hd (h.keeps_new hc)
    subst heq
    have hentry := d.entry_withPosition position
    have hid := d.id_withPosition position
    have hholder : (d.withPosition position).holder = none := by
      rw [← h.free d hc]
      exact congrArg IndexEntry.voltageLevel hentry
    have hattach : attachments (insert (d.withPosition position) (C \ {d})) = attachments C := by
      have hback : insert d (C \ {d}) = C := by
        rw [Set.insert_sdiff_singleton, Set.insert_eq_of_mem hc]
      rw [attachments_insert, hid, d.terminals_withPosition, ← attachments_insert, hback]
    refine ⟨?_, h.base, hj, ?_, fun x e => ?_, ?_, ?_⟩
    · rw [hattach, hput]
      exact h.toWired.congr (voltageLevels_put _ _ _)
    · rw [hput, substations_put]
      exact h.substations
    · rw [hput, h.coherent.keeps_put_same hd hentry, h.keeps_iff x e]
      have hfresh := h.fresh d hc e
      have hown : e ∈ C → e.id = d.id → e = d := fun hm hx => h.eq_of_id hc hm hx
      simp only [Set.mem_insert_iff, Set.mem_sdiff, Set.mem_singleton_iff]
      grind
    · intro e he f hkept
      rcases Set.mem_insert_iff.mp he with rfl | he
      · exact h.fresh d hc f (hid ▸ hkept)
      · exact h.fresh e he.1 f hkept
    · intro e he
      rcases Set.mem_insert_iff.mp he with rfl | he
      · exact hholder
      · exact h.free e he.1
  · rw [hok] at hrun
    cases hrun

end Extended

end Network

end Switchyard
