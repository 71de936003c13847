import Switchyard.Proofs.FeederCopying

namespace Switchyard

open Std Network

variable {c : FeederConnection} {n m : Network} {vl : String} {w u : Wiring} {S : Set Switch}
  {targets : List (Rail × BusbarPosition)} {done : List Int32} {l : List (Node × Node)}
  {xs : List Switch} {i : Int32} {a b f : Node} {r : RailSwitch}

/-- Where the new switches do not start, no nodes are newly joined. -/
theorem Wiring.Widened.joined_of_apart (h : w.Widened S u) (ha : ∀ s ∈ S, s.node1 ≠ a)
    (hb : ∀ s ∈ S, s.node1 ≠ b) (hjoined : u.Joined a b) : w.Joined a b := by
  refine (h.joined_iff.mp hjoined).resolve_right ?_
  rintro ⟨s, hs, ⟨hat, -⟩ | ⟨hat, -⟩⟩
  · exact ha s hs hat
  · exact hb s hs hat

namespace FeederConnection

/-- What is inserted last stays, and what was there stays if nothing is. -/
theorem getElem?_foldl_insert {given : List (Node × RailSwitch)} {e : ExtTreeMap Node RailSwitch}
    (h : (given.foldl (fun e x => e.insert x.1 x.2) e)[f]? = some r) :
    (f, r) ∈ given ∨ e[f]? = some r := by
  induction given generalizing e with
  | nil => exact Or.inr h
  | cons x rest ih =>
    rcases ih h with hin | hin
    · exact Or.inl (List.mem_cons_of_mem x hin)
    · rw [ExtTreeMap.getElem?_insert] at hin
      split at hin
      next heq =>
        obtain rfl : x.1 = f := LawfulEqCmp.eq_of_compare heq
        cases hin
        exact Or.inl List.mem_cons_self
      next => exact Or.inr hin

theorem mem_foldl_insert {given : List (Node × RailSwitch)} {e : ExtTreeMap Node RailSwitch} :
    f ∈ given.foldl (fun e x => e.insert x.1 x.2) e ↔ f ∈ given.map (·.1) ∨ f ∈ e := by
  induction given generalizing e with
  | nil => simp
  | cons x rest ih =>
    rw [List.foldl_cons, ih, ExtTreeMap.mem_insert, LawfulEqCmp.compare_eq_iff_eq, List.map_cons,
      List.mem_cons, eq_comm (a := x.1)]
    tauto

theorem switchesToCopy_eq (placed : List (BusbarSection × BusbarPosition)) :
    c.switchesToCopy n w placed =
      (placed.flatMap fun x => (w.railSwitches x.1.rail).toList.filter (c.keeps n x.2 ·.2)).foldl
        (fun e x => e.insert x.1 x.2) ∅ := by
  rw [List.foldl_flatMap]
  rfl

theorem of_switchesToCopy {placed : List (BusbarSection × BusbarPosition)}
    (h : (c.switchesToCopy n w placed)[f]? = some r) :
    ∃ b q, (b, q) ∈ placed ∧ (w.railSwitches b.rail)[f]? = some r ∧ c.keeps n q r = true := by
  rw [switchesToCopy_eq] at h
  rcases getElem?_foldl_insert h with hin | hin
  · obtain ⟨⟨b, q⟩, hb, hin⟩ := List.mem_flatMap.mp hin
    obtain ⟨hin, hkeeps⟩ := List.mem_filter.mp hin
    exact ⟨b, q, hb, ExtTreeMap.mem_toList_iff_getElem?_eq_some.mp hin, hkeeps⟩
  · simp at hin

theorem exists_switchesToCopy {placed : List (BusbarSection × BusbarPosition)}
    {b : BusbarSection} {q : BusbarPosition} (hb : (b, q) ∈ placed)
    (hfound : (w.railSwitches b.rail)[f]? = some r) (hkeeps : c.keeps n q r = true) :
    ∃ r', (c.switchesToCopy n w placed)[f]? = some r' := by
  refine mem_iff_exists_getElem?.mp ?_
  rw [switchesToCopy_eq, mem_foldl_insert]
  refine Or.inl (List.mem_map.mpr ⟨(f, r), List.mem_flatMap.mpr ⟨(b, q), hb, ?_⟩, rfl⟩)
  exact List.mem_filter.mpr ⟨ExtTreeMap.mem_toList_iff_getElem?_eq_some.mpr hfound, hkeeps⟩

/-- Only where the target is not found, or once behind a coupling, a copy passes for new. -/
theorem of_not_repeats {target : String} (h : repeats n target r = false) :
    r.rail ≠ target ∧ ((r.attachments.filter (·.connectable == target)).length = 0 ∨
      n.isCoupling r = true ∧ (r.attachments.filter (·.connectable == target)).length ≤ 1) := by
  unfold repeats at h
  split at h
  · cases h
  next hrail =>
    refine ⟨hrail, ?_⟩
    split at h
    · exact Or.inl (by simpa using h)
    next hcoupling =>
      have hcoupling : n.isCoupling r = true := by simpa using hcoupling
      dsimp only at h
      split at h
      · exact Or.inl (by simpa using h)
      · exact Or.inr ⟨hcoupling, by simpa using h⟩

theorem of_repeats {target : String} (h : repeats n target r = true) :
    r.rail = target ∨ 0 < (r.attachments.filter (·.connectable == target)).length := by
  unfold repeats at h
  split at h
  · exact Or.inl ‹_›
  · refine Or.inr ?_
    split at h
    · exact of_decide_eq_true h
    · dsimp only at h
      split at h
      · exact of_decide_eq_true h
      · exact Nat.lt_trans Nat.one_pos (of_decide_eq_true h)

/-- Where a copy would repeat a connection, the target is behind the node. -/
theorem beside_of_repeats (hn : n.Coherent False) (hw : n.inside? vl = some (.nodeBreaker w))
    {rail target : Rail} (hr : n.HasRail vl rail) (htarget : n.HasRail vl target)
    (hfound : (w.railSwitches rail)[f]? = some r) (hf : w.Plain f)
    (h : repeats n target.id r = true) : w.Beside f ⟨target.id, .one⟩ := by
  rcases of_repeats h with hself | hcount
  · obtain ⟨hstart, -, -, hjoined, -, -⟩ :=
      Wiring.railSwitches_spec (hn.not_plain_rail hr hw) hfound
    rw [← hself, hstart]
    exact beside_of_joined hn hw hr hjoined
  · obtain ⟨x, hx⟩ := List.exists_mem_of_length_pos hcount
    obtain ⟨hx, hid⟩ := List.mem_filter.mp hx
    obtain ⟨id, side⟩ := x
    obtain rfl : id = target.id := by simpa using hid
    obtain ⟨hbeside, -⟩ := (hn.mem_attachments_iff hr hw hfound hf).mp hx
    obtain ⟨e, he, a, d, ha, hends, hd⟩ := hbeside
    exact ⟨e, he, a, d, ha, hends, (hn.rail_of_terminal htarget hw hd).2 ▸ hd⟩

/-- At a node with a terminal nothing else is looked at: it is kept for a requested feeder, or
for another busbar. -/
theorem of_keeps_terminal (hn : n.Coherent False) (hw : n.inside? vl = some (.nodeBreaker w))
    {rail : Rail} (hr : n.HasRail vl rail) (hfound : (w.railSwitches rail)[f]? = some r)
    {x : Attachment} (hx : w.terminals[f]? = some x) {q : BusbarPosition}
    (hkeeps : c.keeps n q r = true) :
    x.connectable ∉ n.busbarSections ∧ x.connectable ∈ c.connectables ∨
      x.connectable ∈ n.busbarSections ∧ c.couplings = true ∧
        ∃ p, n.position? x.connectable = some p ∧ p.busbarIndex ≠ q.busbarIndex := by
  obtain ⟨-, -, -, -, -, hall⟩ := Wiring.railSwitches_spec (hn.not_plain_rail hr hw) hfound
  rcases keeps_iff.mp hkeeps with ⟨hcoupling, hon, y, hy, hp⟩ | ⟨hfeeder, y, hy, hc⟩
  · obtain rfl := hall x hx y hy
    exact Or.inr ⟨isCoupling_iff.mp hcoupling y hy, hon, hp⟩
  · obtain rfl := hall x hx y hy
    refine Or.inl ⟨fun hin => ?_, hc⟩
    rw [isCoupling_iff.mpr fun z hz => hall y hx z hz ▸ hin] at hfeeder
    cases hfeeder

/-- All that is behind the node are busbar sections, and one switch or internal connection
only joins it to the one at `a`. So a copy of the coupling passes for its other end there. -/
def Overlooks (c : FeederConnection) (n : Network) (w : Wiring) (a f : Node) : Prop :=
  c.couplings = true ∧ (∀ x, w.Beside f x → x.connectable ∈ n.busbarSections) ∧
    w.meetings f a = 1

/-- A coupling may be copied to one of its own ends: a switch joins a busbar section to be
connected directly to one of another busbar, with the same section index. -/
def Loops (c : FeederConnection) (n : Network) : Prop :=
  c.couplings = true ∧ ∃ vl w, n.inside? vl = some (.nodeBreaker w) ∧ ∃ b q d p,
    (b, q) ∈ n.placedSections vl ∧ (d, p) ∈ n.placedSections vl ∧ d.id ∈ c.busbarSections ∧
      q.sectionIndex = p.sectionIndex ∧ q.busbarIndex ≠ p.busbarIndex ∧ w.Joined b.node d.node

/-- A copy to the node is due at a busbar section of the section index: another one is joined
to the node, which holds no terminal and leads to what is wanted. -/
structure Due (c : FeederConnection) (n : Network) (vl : String) (w : Wiring) (i : Int32)
    (f : Node) :
    Prop where
  plain : w.Plain f
  wants : c.Wants n w f
  joined : ∃ b q, (b, q) ∈ n.placedSections vl ∧ q.sectionIndex = i ∧ w.Joined b.node f

/-- The node holds a side of a requested feeder, or a busbar section if couplings are asked
for. -/
def Asked (c : FeederConnection) (n : Network) (w : Wiring) (f : Node) : Prop :=
  ∃ x, w.terminals[f]? = some x ∧
    (x.connectable ∈ c.connectables ∨ c.couplings = true ∧ x.connectable ∈ n.busbarSections)

/-- The targets are busbar sections of the voltage level, with their positions. -/
def Places (n : Network) (vl : String) (targets : List (Rail × BusbarPosition)) : Prop :=
  ∀ t ∈ targets, ∃ b, (b, t.2) ∈ n.placedSections vl ∧ b.rail = t.1

/-- The targets of the section indices `done` are connected by copies between the nodes `l`:
all of them are asked for, none that is due is missing, and only what is overlooked is joined
already. -/
structure Connecting (c : FeederConnection) (n : Network) (vl : String) (w : Wiring)
    (targets : List (Rail × BusbarPosition)) (done : List Int32) (l : List (Node × Node)) :
    Prop where
  origin : ∀ p ∈ l, ∃ t ∈ targets, t.2.sectionIndex ∈ done ∧ p.1 = t.1.node ∧
    (w.Plain p.2 → c.Due n vl w t.2.sectionIndex p.2 ∧
      (w.Beside p.2 ⟨t.1.id, .one⟩ → c.Overlooks n w p.1 p.2)) ∧ (¬w.Plain p.2 → c.Asked n w p.2)
  served : (∀ id ∈ c.connectables, id ∉ n.busbarSections) → ∀ t ∈ targets,
    t.2.sectionIndex ∈ done → ∀ f, c.Due n vl w t.2.sectionIndex f →
      w.Beside f ⟨t.1.id, .one⟩ ∨ ∃ p ∈ l, p.1 = t.1.node ∧ w.Inner f p.2
  nodup : (targets.map (·.1)).Nodup → l.Nodup

theorem Connecting.nil : c.Connecting n vl w targets [] [] where
  origin := by simp
  served := by simp
  nodup := by simp

/-- The switches to copy that are found from the busbar sections of a section index. -/
def foundAt (c : FeederConnection) (n : Network) (vl : String) (m : Network) (u : Wiring)
    (i : Int32) : ExtTreeMap Node RailSwitch :=
  c.switchesToCopy m u ((n.placedSections vl).filter (·.2.sectionIndex == i))

/-- The targets of a section index, in their order. -/
def targetsAt (targets : List (Rail × BusbarPosition)) (i : Int32) : List Rail :=
  (targets.filter (·.2.sectionIndex == i)).map (·.1)

theorem mem_copies_iff {toCopy : ExtTreeMap Node RailSwitch} {p : Node × Node} :
    p ∈ copies n toCopy.toList (targetsAt targets i) ↔ ∃ t ∈ targets, t.2.sectionIndex = i ∧
      p.1 = t.1.node ∧ ∃ r, toCopy[p.2]? = some r ∧ repeats n t.1.id r = false := by
  obtain ⟨a, f⟩ := p
  simp only [copies, targetsAt, List.mem_flatMap, List.mem_map, List.mem_filter, beq_iff_eq,
    Bool.not_eq_true', Prod.exists, Prod.mk.injEq, ExtTreeMap.mem_toList_iff_getElem?_eq_some]
  constructor
  · rintro ⟨_, ⟨rail, q, ⟨ht, hi⟩, rfl⟩, _, r, ⟨hr, hno⟩, rfl, rfl⟩
    exact ⟨rail, q, ht, hi, rfl, r, hr, hno⟩
  · rintro ⟨rail, q, ht, hi, rfl, r, hr, hno⟩
    exact ⟨rail, ⟨rail, q, ⟨ht, hi⟩, rfl⟩, f, r, ⟨hr, hno⟩, rfl, rfl⟩

/-- The network after the targets of the section indices `done` are connected. -/
structure Stage (c : FeederConnection) (n : Network) (vl : String) (w : Wiring)
    (targets : List (Rail × BusbarPosition)) (done : List Int32) (l : List (Node × Node))
    (xs : List Switch) (m : Network) : Prop
    extends Copied vl l xs n m, Connecting c n vl w targets done l where
  inside : n.inside? vl = some (.nodeBreaker w)
  places : Places n vl targets

namespace Stage

variable {t : Rail × BusbarPosition}

theorem hasRail (h : c.Stage n vl w targets done l xs m) (ht : t ∈ targets) :
    n.HasRail vl t.1 := by
  obtain ⟨b, hb, hrail⟩ := h.places t ht
  exact hrail ▸ (placed_spec h.extended.base hb).1

theorem placedSections_eq (h : c.Stage n vl w targets done l xs m) :
    m.placedSections vl = n.placedSections vl := by
  unfold placedSections busbarSectionsIn
  rw [h.extended.busbarSections_eq]

theorem mem_of_switch (h : c.Stage n vl w targets done l xs m) {x : Switch} (hx : x ∈ xs) :
    (x.node1, x.node2) ∈ l :=
  h.ends ▸ List.mem_map_of_mem hx

theorem wired (h : c.Stage n vl w targets done l xs m) :
    ∃ u, m.inside? vl = some (.nodeBreaker u) ∧ w.Widened {x | x ∈ xs} u := by
  refine h.toCopied.widened h.inside fun x hx => ?_
  obtain ⟨t, ht, -, hnode, -⟩ := h.origin _ (h.mem_of_switch hx)
  have hnode : x.node1 = t.1.node := hnode
  rw [hnode]
  exact h.extended.base.not_plain_rail (h.hasRail ht) h.inside

theorem widened (h : c.Stage n vl w targets done l xs m)
    (hu : m.inside? vl = some (.nodeBreaker u)) : w.Widened {x | x ∈ xs} u := by
  obtain ⟨u', hu', hwide⟩ := h.wired
  cases hu.symm.trans hu'
  exact hwide

theorem of_foundAt (h : c.Stage n vl w targets done l xs m)
    (hr : (c.foundAt n vl m u i)[f]? = some r) :
    ∃ b q, (b, q) ∈ n.placedSections vl ∧ (b, q) ∈ m.placedSections vl ∧ q.sectionIndex = i ∧
      m.HasRail vl b.rail ∧ (u.railSwitches b.rail)[f]? = some r ∧ c.keeps m q r = true := by
  obtain ⟨b, q, hbi, hfound, hkeeps⟩ := of_switchesToCopy hr
  obtain ⟨hb, hqi⟩ := List.mem_filter.mp hbi
  have hb' : (b, q) ∈ m.placedSections vl := h.placedSections_eq ▸ hb
  exact ⟨b, q, hb, hb', by simpa using hqi, (placed_spec h.extended.coherent hb').1, hfound, hkeeps⟩

theorem node_ne (h : c.Stage n vl w targets done l xs m) {b : BusbarSection} {q : BusbarPosition}
    (hb : (b, q) ∈ n.placedSections vl) (hq : q.sectionIndex ∉ done) {x : Switch} (hx : x ∈ xs) :
    x.node1 ≠ b.node := by
  obtain ⟨t, ht, hdone, hnode, -⟩ := h.origin _ (h.mem_of_switch hx)
  obtain ⟨b', hb', hrail⟩ := h.places t ht
  intro hat
  have hnode : x.node1 = t.1.node := hnode
  have hsame := placed_unique h.extended.base hb' hb (by rw [← hat, hnode, ← hrail]; rfl)
  rw [hsame.2] at hdone
  exact hq hdone

theorem wants_iff (h : c.Stage n vl w targets done l xs m)
    (hu : m.inside? vl = some (.nodeBreaker u)) (hf : w.Plain f) :
    c.Wants m u f ↔ c.Wants n w f := by
  refine (wants_congr h.extended.busbarSections_eq).trans
    (FeederConnection.wants_iff h.extended.base h.inside (h.widened hu) (fun x hx => ?_)
      (fun x hx hplain => ?_) hf)
  · obtain ⟨t, ht, -, hnode, -⟩ := h.origin _ (h.mem_of_switch hx)
    exact ⟨t.1, h.hasRail ht, hnode.symm⟩
  · obtain ⟨t, ht, -, -, hdue, -⟩ := h.origin _ (h.mem_of_switch hx)
    exact (hdue hplain).1.wants

theorem asked_of_copied (h : c.Stage n vl w targets done l xs m)
    (hu : m.inside? vl = some (.nodeBreaker u)) (hr : (c.foundAt n vl m u i)[f]? = some r)
    (hf : ¬w.Plain f) : c.Asked n w f := by
  obtain ⟨x, hx⟩ := mem_iff_exists_getElem?.mp (not_not.mp hf)
  refine ⟨x, hx, ?_⟩
  obtain ⟨b, q, -, -, -, hrail, hfound, hkeeps⟩ := h.of_foundAt hr
  rw [← (h.widened hu).getElem?_terminals] at hx
  have hcases := of_keeps_terminal h.extended.coherent hu hrail hfound hx hkeeps
  rw [h.extended.busbarSections_eq] at hcases
  exact hcases.imp And.right fun hcoupling => ⟨hcoupling.2.1, hcoupling.1⟩

section

variable (h : c.Stage n vl w targets done l xs m) (hu : m.inside? vl = some (.nodeBreaker u))
  (ht : t ∈ targets)

include h hu ht

/-- What is copied to a target is due there, and no switch joins it unless it is overlooked. -/
theorem due_of_copied (hi : i ∉ done)
    (hr : (c.foundAt n vl m u i)[f]? = some r)
    (hno : repeats m t.1.id r = false) (hf : w.Plain f) :
    c.Due n vl w i f ∧ (w.Beside f ⟨t.1.id, .one⟩ → c.Overlooks n w t.1.node f) := by
  have hn := h.extended.base
  have hm := h.extended.coherent
  have hwide := h.widened hu
  have hplain : u.Plain f := hwide.plain_iff.mpr hf
  obtain ⟨b, q, hb, hb', hqi, hrail, hfound, hkeeps⟩ := h.of_foundAt hr
  obtain ⟨hstart, -, -, hjoined, -, -⟩ :=
    Wiring.railSwitches_spec (hm.not_plain_rail hrail hu) hfound
  have hfar : ∀ x ∈ {x | x ∈ xs}, x.node1 ≠ f := fun x hx he =>
    hwide.held x hx (he ▸ hf)
  refine ⟨⟨hf, (h.wants_iff hu hf).mp (wants_of_keeps hm hu hb' hfound hplain hkeeps), b, q, hb,
    hqi, hwide.joined_of_apart (fun x hx => h.node_ne hb (hqi ▸ hi) hx) hfar hjoined⟩,
    fun hbeside => ?_⟩
  -- The target is met behind the node, but not as often as a repeated copy would need.
  obtain ⟨e, he, a, d, ha, hends, hd⟩ := hbeside
  obtain rfl := (hn.rail_of_terminal (h.hasRail ht) h.inside hd).1
  have hmeets : 0 < w.meetings f t.1.node := Wiring.meetings_pos_iff.mpr ⟨e, he, a, ha, hends⟩
  have hmore := hwide.meetings_le hf t.1.node
  have htarget : m.HasRail vl t.1 := h.extended.hasRail_iff.mpr (h.hasRail ht)
  obtain ⟨hother, hcases⟩ := of_not_repeats hno
  have hcount := hm.occurrences_eq hrail htarget (fun hid => hother (hstart.trans hid.symm)) hu
    hfound hplain
  rw [hcount] at hcases
  obtain ⟨hcoupling, honce⟩ := hcases.resolve_left (by omega)
  refine ⟨?_, fun x hx => ?_, by omega⟩
  · rcases keeps_iff.mp hkeeps with ⟨-, hon, -⟩ | ⟨hfeeder, -⟩
    · exact hon
    · rw [hcoupling] at hfeeder
      cases hfeeder
  · rw [← h.extended.busbarSections_eq]
    by_cases hself : x = ⟨b.rail.id, .one⟩
    · exact hself ▸ (placed_spec hm hb').2.2
    · have hin := (hwide.beside_iff hf).mpr (Or.inl hx)
      exact isCoupling_iff.mp hcoupling x
        ((hm.mem_attachments_iff hrail hu hfound hplain).mpr ⟨hin, hself⟩)

theorem ne_of_copied (hi : i ∉ done) (hti : t.2.sectionIndex = i) (hloops : ¬c.Loops n)
    (hid : t.1.id ∈ c.busbarSections)
    (hr : (c.foundAt n vl m u i)[f]? = some r) : t.1.node ≠ f := by
  rintro rfl
  have hn := h.extended.base
  have hm := h.extended.coherent
  have hwide := h.widened hu
  obtain ⟨b, q, hb, -, hqi, hrail, hfound, hkeeps⟩ := h.of_foundAt hr
  obtain ⟨-, -, -, hjoined, -⟩ := Wiring.railSwitches_spec (hm.not_plain_rail hrail hu) hfound
  obtain ⟨d, hd, hdrail⟩ := h.places t ht
  obtain ⟨-, hposition, hin⟩ := placed_spec hn hd
  have hid' : d.id = t.1.id := congrArg Rail.id hdrail
  have hnode' : d.node = t.1.node := congrArg Rail.node hdrail
  have hterminal := hm.terminal_rail (h.extended.hasRail_iff.mpr (h.hasRail ht)) hu
  rcases of_keeps_terminal hm hu hrail hfound hterminal hkeeps with
    ⟨hout, -⟩ | ⟨-, hon, p, hp, hne⟩
  · rw [h.extended.busbarSections_eq, ← hid'] at hout
    exact hout hin
  · rw [position?, h.extended.busbarSections_eq, ← hid'] at hp
    obtain rfl := Option.some.inj (hposition.symm.trans hp)
    refine hloops ⟨hon, vl, w, h.inside, b, q, d, t.2, hb, hd, hid' ▸ hid, hqi.trans hti.symm,
      hne.symm, ?_⟩
    rw [hnode']
    refine hwide.joined_of_apart (fun x hx => h.node_ne hb (hqi ▸ hi) hx) (fun x hx => ?_) hjoined
    exact hnode' ▸ h.node_ne hd (hti ▸ hi) hx

/-- No copy that is due is missing once the targets of the section index are connected. -/
theorem served_of_due (hti : t.2.sectionIndex = i)
    (hreq : ∀ id ∈ c.connectables, id ∉ n.busbarSections)
    (hdue : c.Due n vl w i f) :
    w.Beside f ⟨t.1.id, .one⟩ ∨
      ∃ p ∈ l ++ copies m (c.foundAt n vl m u i).toList (targetsAt targets i),
        p.1 = t.1.node ∧ w.Inner f p.2 := by
  have hn := h.extended.base
  have hm := h.extended.coherent
  have hwide := h.widened hu
  have hplain : u.Plain f := hwide.plain_iff.mpr hdue.plain
  have hreq' : ∀ id ∈ c.connectables, id ∉ m.busbarSections := by
    rwa [h.extended.busbarSections_eq]
  obtain ⟨b, q, hb, hqi, hjoined⟩ := hdue.joined
  have hb' : (b, q) ∈ m.placedSections vl := h.placedSections_eq.symm ▸ hb
  have hwants : c.Wants m u f := (h.wants_iff hu hdue.plain).mpr hdue.wants
  obtain ⟨g, r, hfound, hg, hinner⟩ := exists_railSwitch_of_wants hm hu hb' hreq' hwants
    (hwide.joined_iff.mpr (Or.inl hjoined)) hplain
  have hwants : c.Wants m u g := by
    simpa only [Wants, Wiring.beside_congr hplain hinner] using hwants
  have hkeeps := keeps_of_wants hm hu hb' hreq' hwants hfound hg
  have hhere : (b, q) ∈ (n.placedSections vl).filter (·.2.sectionIndex == i) :=
    List.mem_filter.mpr ⟨hb, by simpa using hqi⟩
  obtain ⟨r', hr'⟩ : ∃ r', (c.foundAt n vl m u i)[g]? = some r' :=
    exists_switchesToCopy hhere hfound hkeeps
  have hold : w.Inner f g := (hwide.inner_iff hdue.plain).mp hinner
  cases hrepeats : repeats m t.1.id r' with
  | false =>
    refine Or.inr ⟨(t.1.node, g), List.mem_append.mpr (Or.inr ?_), rfl, hold⟩
    exact mem_copies_iff.mpr ⟨t, ht, hti, rfl, r', hr', hrepeats⟩
  | true =>
    -- The target is behind the node already, by a switch of its own or by one of the copies.
    obtain ⟨b', q', -, -, -, hrail', hfound', -⟩ := h.of_foundAt hr'
    have hbeside : u.Beside g ⟨t.1.id, .one⟩ :=
      beside_of_repeats hm hu hrail' (h.extended.hasRail_iff.mpr (h.hasRail ht)) hfound' hg hrepeats
    rcases (hwide.beside_iff hdue.plain).mp ((Wiring.beside_congr hplain hinner).mpr hbeside) with
      hbefore | ⟨x, hx, hcopied, hx1⟩
    · exact Or.inl hbefore
    · have hnode := (hn.rail_of_terminal (h.hasRail ht) h.inside hx1).1
      exact Or.inr ⟨(x.node1, x.node2), List.mem_append.mpr (Or.inl (h.mem_of_switch hx)), hnode,
        hcopied⟩

end

/-- No two copies of a section index are between the same nodes. -/
theorem nodup_copies (h : c.Stage n vl w targets done l xs m)
    (hnodup : (targets.map (·.1)).Nodup) (toCopy : ExtTreeMap Node RailSwitch) :
    (copies m toCopy.toList (targetsAt targets i)).Nodup := by
  have hkeys : (toCopy.toList.map (·.1)).Nodup := by
    rw [ExtTreeMap.map_fst_toList_eq_keys]
    exact ExtTreeMap.nodup_keys
  have hrails : ∀ r ∈ targetsAt targets i, n.HasRail vl r := by
    intro r hr
    obtain ⟨t, ht, rfl⟩ := List.mem_map.mp hr
    exact h.hasRail (List.mem_of_mem_filter ht)
  have hhere : (targetsAt targets i).Nodup :=
    hnodup.sublist (List.filter_sublist.map _)
  refine List.nodup_flatMap.mpr ⟨fun r _ => ?_, hhere.imp_of_mem fun {r r'} hr hr' hne => ?_⟩
  · refine List.Nodup.of_map Prod.snd ?_
    rw [List.map_map]
    exact hkeys.sublist (List.filter_sublist.map _)
  · rintro ⟨a, f⟩ hp hp'
    obtain ⟨_, -, he⟩ := List.mem_map.mp hp
    obtain ⟨_, -, he'⟩ := List.mem_map.mp hp'
    have hnode : r.node = r'.node :=
      (congrArg Prod.fst he).trans (congrArg Prod.fst he').symm
    exact hne (h.extended.base.rail_eq_of_node (hrails r hr) (hrails r' hr') hnode)

theorem next (h : c.Stage n vl w targets done l xs m) (hu : m.inside? vl = some (.nodeBreaker u))
    (hi : i ∉ done) {ys : List Switch} {k : Network}
    (hys : Copied vl (copies m (c.foundAt n vl m u i).toList (targetsAt targets i)) ys m k) :
    c.Stage n vl w targets (done ++ [i])
      (l ++ copies m (c.foundAt n vl m u i).toList (targetsAt targets i)) (xs ++ ys) k where
  toCopied := h.toCopied.trans hys
  inside := h.inside
  places := h.places
  origin := by
    intro p hp
    rcases List.mem_append.mp hp with hp | hp
    · obtain ⟨t, ht, hdone, hrest⟩ := h.origin p hp
      exact ⟨t, ht, List.mem_append.mpr (Or.inl hdone), hrest⟩
    · obtain ⟨t, ht, rfl, hnode, r, hr, hno⟩ := mem_copies_iff.mp hp
      refine ⟨t, ht, by simp, hnode, fun hf => ?_, h.asked_of_copied hu hr⟩
      rw [hnode]
      exact h.due_of_copied hu ht hi hr hno hf
  served := by
    intro hreq t ht hdone f hdue
    rcases List.mem_append.mp hdone with hdone | hdone
    · refine (h.served hreq t ht hdone f hdue).imp_right ?_
      rintro ⟨p, hp, hrest⟩
      exact ⟨p, List.mem_append.mpr (Or.inl hp), hrest⟩
    · have hti := List.mem_singleton.mp hdone
      exact h.served_of_due hu ht hti hreq (hti ▸ hdue)
  nodup := by
    intro hnodup
    refine List.nodup_append.mpr ⟨h.nodup hnodup, h.nodup_copies hnodup _, ?_⟩
    rintro p hp _ hp' rfl
    obtain ⟨t, ht, hdone, hnode, -⟩ := h.origin p hp
    obtain ⟨t', ht', rfl, hnode', -⟩ := mem_copies_iff.mp hp'
    obtain ⟨b, hb, hrail⟩ := h.places t ht
    obtain ⟨b', hb', hrail'⟩ := h.places t' ht'
    have hsame : b.rail.node = b'.rail.node := by rw [hrail, hrail', ← hnode, ← hnode']
    exact hi ((placed_unique h.extended.base hb hb' hsame).2 ▸ hdone)

end Stage

end FeederConnection

end Switchyard
