import Switchyard.Proofs.Rooms
import Switchyard.Proofs.Unfailing

namespace Switchyard

open Std Network

variable {K : ObjectKind → Prop} {C D D' : Set Connectable} {n m k : Network} {vl id : String}
  {c : Connectable} {x : Side × Terminal}

namespace Network

/-- The second network is the first one with the connectables `D` in place of the
connectables `C`, and with the insides of its voltage levels rearranged. -/
structure Replaced (K : ObjectKind → Prop) (C D : Set Connectable) (n m : Network) : Prop where
  without : ∃ k, Extended ∅ ∅ C k n ∧ Refitted K D k m
  coherent : m.Coherent False

namespace Replaced

theorem trans (h : Replaced K C D n m) (hk : k.Coherent False) (hfit : Refitted K D' m k) :
    Replaced K C (D ∪ D') n k := by
  obtain ⟨x, hx, hm⟩ := h.without
  exact ⟨⟨x, hx, hm.trans hfit⟩, hk⟩

theorem hasRail_iff (h : Replaced K C D n m) {r : Rail} : m.HasRail vl r ↔ n.HasRail vl r := by
  obtain ⟨x, hx, hm⟩ := h.without
  exact hm.hasRail_iff.trans hx.hasRail_iff.symm

theorem hasBus (h : Replaced K C D n m) {bus : String} (hb : n.HasBus vl bus) :
    m.HasBus vl bus := by
  obtain ⟨x, hx, hm⟩ := h.without
  exact hm.hasBus vl bus (hx.hasBus_iff.mp hb)

theorem wiring (h : Replaced K C D n m) (hw : ∃ w, n.inside? vl = some (.nodeBreaker w)) :
    ∃ w, m.inside? vl = some (.nodeBreaker w) := by
  obtain ⟨x, hx, hm⟩ := h.without
  obtain ⟨w, hw⟩ := hw
  obtain ⟨w', hw', -⟩ := hx.toWired.wiring_old (Set.notMem_empty vl) hw
  exact hm.wiring ⟨w', hw'⟩

theorem mem_voltageLevels (h : Replaced K C D n m) (hvl : vl ∈ n.voltageLevels) :
    vl ∈ m.voltageLevels := by
  obtain ⟨x, hx, hm⟩ := h.without
  exact hm.mem_voltageLevels ((mem_voltageLevels_of_shell hx.shell).mp hvl)

/-- Where a replaced connectable was, there is room, unless one in place of it is there. -/
theorem free (h : Replaced K C D n m) (hc : c ∈ C) (hx : x ∈ c.terminals)
    (hapart : ∀ d ∈ D, ∀ y ∈ d.terminals, x.2.Apart y.2) : m.Free x.2 := by
  obtain ⟨k, hk, hm⟩ := h.without
  exact hm.stays_free hk.base h.coherent (hk.free_of_mem hc hx) hapart

theorem stays_free (h : Replaced K C D n m) {y : Terminal} (hy : n.Free y)
    (hapart : ∀ d ∈ D, ∀ z ∈ d.terminals, y.Apart z.2) : m.Free y := by
  obtain ⟨k, hk, hm⟩ := h.without
  exact hm.stays_free hk.base h.coherent (hk.free_of_free hy) hapart

/-- An id that only replaced connectables had is in use for something of the
kinds `K`, if it is not the id of a connectable in place of them. -/
theorem kind_of_index (h : Replaced K C D n m) (hid : id ∈ n.index → ∃ c ∈ C, c.id = id)
    (hD : ∀ d ∈ D, d.id ≠ id) {e : IndexEntry} (he : m.index[id]? = some e) : K e.kind := by
  obtain ⟨k, hk, hm⟩ := h.without
  rcases hm.index id e he with he | hK | ⟨d, hd, rfl⟩
  · obtain ⟨c, hc, rfl⟩ := hid (hk.mem_index (mem_iff_exists_getElem?.mpr ⟨e, he⟩))
    exact absurd (mem_iff_exists_getElem?.mpr ⟨e, he⟩) (hk.not_mem_index hc)
  · exact hK
  · exact absurd rfl (hD d hd)

end Replaced

theorem Coherent.mem_voltageLevels (h : n.Coherent False) (hc : n.Keeps id c)
    (hx : x ∈ c.terminals) : x.2.voltageLevel ∈ n.voltageLevels := by
  by_contra hvl
  have hout := h.isIn_eq_false hvl hc
  have hin : c.isIn x.2.voltageLevel = true := List.any_eq_true.mpr ⟨x, hx, by simp⟩
  rw [hin] at hout
  cases hout

theorem Coherent.wiring_of_node (h : n.Coherent False) (hc : n.Keeps id c) (hx : x ∈ c.terminals)
    {node : Node} (hnode : x.2.node? = some node) :
    ∃ w, n.inside? x.2.voltageLevel = some (.nodeBreaker w) := by
  obtain ⟨side, vl, connection⟩ := x
  cases connection with
  | bus bus => cases hnode
  | node k =>
    obtain ⟨w, hw, -⟩ := (h.holdsAt_iff vl k ⟨id, side⟩).mpr ⟨c, hc, hx⟩
    exact ⟨w, hw⟩

end Network

/-- Lines, as connectables. -/
def Branch.connectables (l : List Branch) : Set Connectable :=
  {c | ∃ b ∈ l, c = .branch b}

theorem Branch.connectables_singleton (b : Branch) : connectables [b] = {.branch b} := by
  ext c
  simp [connectables]

theorem Branch.exists_connectable {l : List Branch} (hid : id ∈ l.map (·.id)) :
    ∃ c ∈ connectables l, c.id = id := by
  obtain ⟨b, hb, rfl⟩ := List.mem_map.mp hid
  exact ⟨.branch b, ⟨b, hb, rfl⟩, rfl⟩

theorem Branch.mem_terminals (b : Branch) (side : Side) :
    ∃ s, (s, b.terminal side) ∈ (Connectable.branch b).terminals := by
  cases side <;> simp [terminal, Connectable.terminals]

/-- Where a line is gone and nothing is in its place, there is room for its ends. -/
theorem Network.Replaced.free_end (h : Replaced K C ∅ n m) {b : Branch} (hb : .branch b ∈ C)
    (side : Side) : m.Free (b.terminal side) := by
  obtain ⟨_, hside⟩ := b.mem_terminals side
  exact h.free hb hside (by simp)

namespace Run

variable {α β : Type} {s t : Session} {l : List Branch} {p : Fault → Session → Prop}

theorem Rewires.replaced {r : Run α} (hr : r.Rewires K s) (h : Replaced K C D n s.network) {a : α}
    (hok : r s = .ok a t) : Replaced K C D n t.network := by
  obtain ⟨ht, hfit⟩ := hr.refitted h.coherent hok
  have hall := h.trans ht hfit
  rwa [Set.union_empty] at hall

/-- A created line comes in place of others. -/
theorem replaced_createLine (h : Replaced K C D n s.network) {d : BranchDraft} {t1 t2 : Terminal}
    (h1 : d.terminal1 = some t1) (h2 : d.terminal2 = some t2) (hok : createLine d s = .ok id t) :
    Replaced K C (insert (.branch (d.branch t1 t2 id)) D) n t.network := by
  obtain ⟨ht, hfit⟩ := refitted_createLine h.coherent h1 h2 hok
  have hall := h.trans ht hfit
  rwa [Set.union_singleton] at hall

theorem replaced_removeLine {b : Branch} (hs : s.network.Coherent False)
    (hb : s.network.Keeps b.id (.branch b)) (hok : removeLine b.id s = .ok () t) :
    Replaced K {.branch b} ∅ s.network t.network :=
  have hone := .of_removeConnectable hs hb rfl (removeLine_eq_ok hok)
  ⟨⟨t.network, hone, .refl _⟩, hone.base⟩

theorem replaced_removeLines (hs : s.network.Coherent False)
    (hl : ∀ b ∈ l, s.network.Keeps b.id (.branch b)) (hnodup : l.Nodup)
    (hok : removeLines (l.map (·.id)) s = .ok () t) :
    Replaced K (Branch.connectables l) ∅ s.network t.network :=
  have hall := of_removeLines hs hl hnodup hok
  ⟨⟨t.network, hall, .refl _⟩, hall.base⟩

/-- Lines can be removed with the bays around some of their terminals. That takes up no room. -/
theorem Fails.removeLines_bind (hs : s.network.Coherent False)
    (hl : ∀ b ∈ l, s.network.Keeps b.id (.branch b)) (hnodup : l.Nodup)
    {left : List (String × Terminal)}
    (hleft : ∀ y ∈ left, ∃ b ∈ l, ∃ side, y.2 = b.terminal side) {k : Unit → Run β}
    (hk : ∀ t, Replaced K (Branch.connectables l) ∅ s.network t.network →
      (∀ vl count, s.network.Room vl count → t.network.Room vl count) → (k ()).Fails t p) :
    (removeLines (l.map (·.id)) >>= fun _ => pruneLeft left >>= k).Fails s p := by
  refine (sure_removeLines hs hl hnodup).fails.bind fun _ t ht => ?_
  have hgone : Replaced K (Branch.connectables l) ∅ s.network t.network :=
    replaced_removeLines hs hl hnodup ht
  refine (sure_pruneLeft hgone.coherent fun y hy node hnode => ?_).fails.bind fun _ u hu => ?_
  · obtain ⟨b, hb, side, he⟩ := hleft y hy
    obtain ⟨_, hside⟩ := b.mem_terminals side
    rw [he] at hnode ⊢
    exact hgone.wiring (hs.wiring_of_node (hl b hb) hside hnode)
  · refine hk u ((rewires_pruneLeft left).replaced hgone hu) fun vl count hroom => ?_
    have hleft := (of_removeLines hs hl hnodup ht).room_base (Set.notMem_empty vl) hroom
    exact room_pruneLeft hgone.coherent hu hleft

end Run

end Switchyard
